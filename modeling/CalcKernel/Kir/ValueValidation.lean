import CalcKernel.Kir.Dominance
import CalcKernel.Kir.Typing

/-!
# Validation of values

The checks of the KIR validator that read values: single definitions, uses in the reach of
their definitions, operand types, guards, edges and terminators.  The checks of vectors and
of version predicates have rules of their own and are apart.
-/

namespace CalcKernel

/-! ## Uses -/

/-- `visit_place_uses`. -/
def KirPlace.uses : KirPlace → List ValueId
  | .value v _ _ => [v]
  | .deref pointer _ _ => [pointer]
  | .index base i _ _ => base.uses ++ [i]
  | .sliceIndex slice i _ _ => [slice, i]
  | .field base _ _ _ => base.uses

def KirVersionPredicateConjunct.uses : KirVersionPredicateConjunct → List ValueId
  | .tripThreshold v _ => [v]
  | .addressIntervalsDisjoint left leftCount _ right rightCount _ =>
      [left, leftCount, right, rightCount]
  | .wasmSliceRange slice start count _ => [slice, start, count]

def KirVectorMemoryAccess.uses (access : KirVectorMemoryAccess) : List ValueId :=
  [access.slice, access.start, access.stop]

/-- `visit_instruction_uses`. -/
def KirInstruction.uses (i : KirInstruction) : List ValueId :=
  match i.kind with
  | .undef _ | .constInt _ | .constFloat _ | .constBool _ => []
  | .copy v | .cast _ v => [v]
  | .binary _ left right _ | .compare _ left right => [left, right]
  | .unary _ operand _ => [operand]
  | .checkCondition _ args | .call _ args | .runtimeCall _ args => args
  | .guard condition _ => [condition]
  | .address place | .load place => place.uses
  | .store place v => place.uses ++ [v]
  | .makeSlice data len => [data, len]
  | .sliceData slice | .sliceLen slice => [slice]
  | .subslice slice start stop => [slice, start, stop]
  | .versionPredicate predicate => predicate.conjuncts.flatMap (·.uses)
  | .vectorSplat scalar _ => [scalar]
  | .vectorLoad access _ => access.uses
  | .vectorStore access v _ => access.uses ++ [v]
  | .vectorBinary _ left right _ _ _ | .vectorCompare _ left right _ => [left, right]
  | .vectorUnary _ operand _ _ _ => [operand]
  | .vectorSelect mask whenTrue whenFalse _ => [mask, whenTrue, whenFalse]
  | .vectorCast _ v _ => [v]
  | .vectorInsert vector scalar _ _ => [vector, scalar]
  | .vectorExtract vector _ _ | .vectorReduce _ vector _ _ => [vector]

/-- `terminator_uses`. -/
def KirTerminator.uses (t : KirTerminator) : List ValueId :=
  (match t with
  | .return v _ _ => v.toList
  | .jump _ => []
  | .branch condition _ _ => [condition]) ++ t.edges.flatMap (·.args)

/-! ## Definitions -/

inductive ValueDefinition where
  | functionParam
  | blockParam (block : BlockId)
  | instruction (block : BlockId) (index : Nat)
deriving DecidableEq, Repr

def KirBlock.valueDefinitions (b : KirBlock) : List (ValueId × ValueDefinition) :=
  b.params.map (fun p ↦ (p.value, .blockParam b.id)) ++
    b.instructions.zipIdx.flatMap fun (i, index) ↦
      i.defs.map fun v ↦ (v, .instruction b.id index)

namespace KirFunction

variable (f : KirFunction)

def valueDefinitions : List (ValueId × ValueDefinition) :=
  f.params.map (fun p ↦ (p.value, .functionParam)) ++ f.blocks.flatMap (·.valueDefinitions)

/-- The definition of a value.  A second definition is an error and does not count. -/
def valueDefinition? (v : ValueId) : Option ValueDefinition := f.valueDefinitions.lookup v

/-- The type of a value, that of a second definition if there is one. -/
def recordedType? (v : ValueId) : Option KirValueType := f.valueTypes.reverse.lookup v

end KirFunction

/-- A definition is in reach before the instruction of an index. -/
def ValueDefinition.reaches (dominators : Dominators) (useBlock : BlockId) (useIndex : Nat) :
    ValueDefinition → Bool
  | .functionParam => true
  | .blockParam block => block = useBlock || dominators block useBlock
  | .instruction block index =>
      if block = useBlock then index < useIndex else dominators block useBlock

/-! ## Checks -/

/-- `validate_use`. -/
def valueUseErrors (f : KirFunction) (dominators : Dominators) (useBlock : BlockId)
    (useIndex : Nat) (v : ValueId) : List String :=
  match f.valueDefinition? v with
  | none => ["value v" ++ toString v ++ " is not defined"]
  | some definition =>
      if definition.reaches dominators useBlock useIndex then []
      else ["value v" ++ toString v ++ " definition does not dominate its use"]

/-- The scalar part of `validate_instruction_structure`. -/
def instructionTypeErrors (f : KirFunction) (b : KirBlock) (i : KirInstruction) (index : Nat) :
    List String :=
  (match i.kind with
  | .binary _ left right _ =>
      let result := (i.results.head?).map (·.typeNode)
      if f.recordedType? left = result ∧ f.recordedType? right = result then []
      else ["binary operands and value result must have one type"]
  | _ => []) ++
  (match i.requiredGuard with
  | none => []
  | some (condition, failure) =>
      if (b.instructions[index + 1]?).any (·.kind = .guard condition failure) then []
      else match i.kind with
        | .checkCondition _ _ => ["check condition is not followed by its required guard"]
        | _ => ["checked arithmetic result is not followed by its required overflow guard"]) ++
  match i.kind with
  | .guard condition _ =>
      (if i.effect.any (·.kind = .mayFail) then []
      else ["guard must carry an ordered may-fail effect"]) ++
      if f.recordedType? condition = some (.scalar .bool) then []
      else ["guard condition must have bool type"]
  | _ => []

/-- The value part of `validate_edge`. -/
def edgeValueErrors (f : KirFunction) (b : KirBlock) (edge : KirEdge) : List String :=
  match f.blocks.reverse.find? (·.id = edge.target) with
  | none =>
      ["edge from b" ++ toString b.id ++ " names missing block b" ++ toString edge.target]
  | some target =>
      (if edge.args.length = target.params.length then []
      else ["edge to b" ++ toString edge.target ++ " has block argument arity " ++
        toString edge.args.length ++ ", expected " ++ toString target.params.length]) ++
      (edge.args.zip target.params).flatMap fun (argument, param) ↦
        match f.recordedType? argument with
        | none => []
        | some type =>
            if type = param.typeNode then []
            else ["edge to b" ++ toString edge.target ++ " passes v" ++ toString argument ++
              " with the wrong block argument type"]

/-- `validate_terminator_types`. -/
def terminatorTypeErrors (f : KirFunction) : KirTerminator → List String
  | .return none _ _ =>
      if f.returnType = .void then []
      else ["return value cannot expose a vector or mismatch the scalar function ABI"]
  | .return (some v) _ _ =>
      if f.recordedType? v = some (.scalar f.returnType) then []
      else ["return value cannot expose a vector or mismatch the scalar function ABI"]
  | .branch condition _ _ =>
      if f.recordedType? condition = some (.scalar .bool) then []
      else ["branch condition must be scalar bool, not a vector mask"]
  | .jump _ => []

def blockValueErrors (f : KirFunction) (dominators : Dominators) (b : KirBlock) : List String :=
  b.instructions.zipIdx.flatMap (fun (i, index) ↦
    i.uses.flatMap (valueUseErrors f dominators b.id index) ++
      instructionTypeErrors f b i index) ++
  b.terminator.uses.flatMap (valueUseErrors f dominators b.id b.instructions.length) ++
  terminatorTypeErrors f b.terminator ++
  b.terminator.edges.flatMap (edgeValueErrors f b)

/-- The value part of `validate_kir_module`. -/
def KirModule.valueErrors (m : KirModule) : List String :=
  duplicateErrors "duplicate value definition" [] (m.functions.flatMap (·.valueIds)) ++
  duplicateErrors "duplicate block id" [] (m.functions.flatMap (·.blockIds)) ++
  duplicateErrors "duplicate instruction id" []
    (m.functions.flatMap fun f ↦ f.instructions.map (·.id)) ++
  m.functions.flatMap fun f ↦ f.blocks.flatMap (blockValueErrors f f.computeKirDominators)

end CalcKernel
