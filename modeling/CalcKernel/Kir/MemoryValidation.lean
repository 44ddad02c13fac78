import CalcKernel.Kir.Model

/-!
# Validation of memory annotations

The checks of the KIR validator that read regions and memory versions.  All other
checks read types, values and effects only.  The dominator table is a parameter.
-/

namespace CalcKernel

/-- Every memory version a function defines. -/
def KirFunction.memoryVersions (f : KirFunction) : List MemoryVersionId :=
  f.initialMemory.map (·.version) ++ f.blocks.flatMap fun b ↦
    b.memoryParams.map (·.version) ++ b.instructions.filterMap fun i ↦ i.memory.bind (·.output)

/-! ## Code without memory annotations -/

def KirInstruction.withoutMemory (i : KirInstruction) : KirInstruction := { i with memory := none }

def KirEdge.withoutMemory (edge : KirEdge) : KirEdge := { edge with memoryArgs := [] }

def KirTerminator.withoutMemory : KirTerminator → KirTerminator
  | .return value _ effectOrder => .return value [] effectOrder
  | .jump edge => .jump edge.withoutMemory
  | .branch condition thenEdge elseEdge =>
      .branch condition thenEdge.withoutMemory elseEdge.withoutMemory

def KirBlock.withoutMemory (b : KirBlock) : KirBlock :=
  { b with
    memoryParams := []
    instructions := b.instructions.map (·.withoutMemory)
    terminator := b.terminator.withoutMemory }

/-- The function less its memory versions and partitions. -/
def KirFunction.withoutMemory (f : KirFunction) : KirFunction :=
  { f with
    initialMemory := []
    regions := f.regions.map fun r ↦ { r with partition := 0 }
    blocks := f.blocks.map (·.withoutMemory) }

theorem KirFunction.withoutMemory_blockIds (f : KirFunction) :
    f.withoutMemory.blocks.map (·.id) = f.blocks.map (·.id) := by
  simp only [withoutMemory, List.map_map]
  rfl

/-! ## Checks -/

inductive MemoryDefinition where
  | initial
  | blockParam (block : BlockId)
  | instruction (block : BlockId) (index : Nat)
deriving DecidableEq, Repr

/-- Where a version is defined, and the partition it belongs to. -/
structure MemoryDefinitionEntry where
  version : MemoryVersionId
  region : MemoryRegionId
  definition : MemoryDefinition
deriving DecidableEq, Repr

def KirBlock.outputEntries (b : KirBlock) : List MemoryDefinitionEntry :=
  b.instructions.zipIdx.filterMap fun (i, index) ↦
    i.memory.bind fun memory ↦ memory.output.map fun output ↦
      ⟨output, memory.region, .instruction b.id index⟩

def KirFunction.memoryDefinitions (f : KirFunction) : List MemoryDefinitionEntry :=
  f.initialMemory.map (fun initial ↦ ⟨initial.version, initial.region, .initial⟩) ++
    f.blocks.flatMap fun b ↦
      b.memoryParams.map (fun param ↦ ⟨param.version, param.region, .blockParam b.id⟩) ++
        b.outputEntries

/-- The definition of a version.  A second definition is an error and does not count. -/
def KirFunction.memoryDefinition? (f : KirFunction) (version : MemoryVersionId) :
    Option MemoryDefinition :=
  (f.memoryDefinitions.find? (·.version = version)).map (·.definition)

/-- The partition of a version, that of a second definition if there is one. -/
def KirFunction.versionRegion? (f : KirFunction) (version : MemoryVersionId) :
    Option MemoryRegionId :=
  (f.memoryDefinitions.reverse.find? (·.version = version)).map (·.region)

abbrev Dominators := BlockId → BlockId → Bool

def MemoryDefinition.reaches (dominators : Dominators) (useBlock : BlockId) (useIndex : Nat) :
    MemoryDefinition → Bool
  | .initial => true
  | .blockParam block => block = useBlock || dominators block useBlock
  | .instruction block index =>
      if block = useBlock then index < useIndex else dominators block useBlock

/-- `validate_memory_use`. -/
def memoryUseErrors (f : KirFunction) (dominators : Dominators) (useBlock : BlockId)
    (useIndex : Nat) (version : MemoryVersionId) : List String :=
  match f.memoryDefinition? version with
  | none => ["memory version m" ++ toString version ++ " is not defined"]
  | some definition =>
      if definition.reaches dominators useBlock useIndex then []
      else ["memory version m" ++ toString version ++ " definition does not dominate its use"]

/-- The version belongs to another partition than the one named. -/
def partitionErrors (f : KirFunction) (version : MemoryVersionId) (region : MemoryRegionId)
    (message : String) : List String :=
  if f.versionRegion? version = some region then [] else [message]

/-- The memory part of the vector checks and of the version predicate check. -/
def KirInstruction.recordErrors (f : KirFunction) (i : KirInstruction) : List String :=
  match i.kind with
  | .vectorLoad access _ => vectorErrors access false
  | .vectorStore access _ _ => vectorErrors access true
  | .versionPredicate _ =>
      if i.memory.isSome then
        ["version predicate result, target layout, or conjunct count is invalid"]
      else []
  | _ => []
where
  vectorErrors (access : KirVectorMemoryAccess) (store : Bool) : List String :=
    let kind := if store then KirEffectKind.writeMemory else .readMemory
    let valid := i.memory.any fun memory ↦
      f.regions.any (fun r ↦ r.id = memory.region && r.partition = memory.region) &&
      f.regions.any (fun r ↦
        r.partition = memory.region && r.origin.value? = some access.slice) &&
      memory.output.isSome = store && i.effect.any (·.kind = kind)
    if valid then [] else ["vector memory instruction has invalid Memory SSA or effect"]

def instructionMemoryErrors (f : KirFunction) (dominators : Dominators) (b : KirBlock)
    (i : KirInstruction) (index : Nat) : List String :=
  i.recordErrors f ++
  match i.memory with
  | none => []
  | some memory =>
      memoryUseErrors f dominators b.id index memory.input ++
        partitionErrors f memory.input memory.region
          "memory input version partition does not match instruction access"

/-- The memory part of `validate_edge`, and the uses of the memory arguments. -/
def edgeMemoryErrors (f : KirFunction) (dominators : Dominators) (b : KirBlock) (edge : KirEdge) :
    List String :=
  (match f.blocks.reverse.find? (·.id = edge.target) with
  | none =>
      ["edge from b" ++ toString b.id ++ " names missing block b" ++ toString edge.target]
  | some target =>
      (if edge.memoryArgs.length = target.memoryParams.length then []
      else ["edge to b" ++ toString edge.target ++ " has memory argument arity " ++
        toString edge.memoryArgs.length ++ ", expected " ++
          toString target.memoryParams.length]) ++
      (edge.memoryArgs.zip target.memoryParams).flatMap fun (argument, param) ↦
        partitionErrors f argument param.region
          "memory edge argument partition does not match target phi") ++
  edge.memoryArgs.flatMap (memoryUseErrors f dominators b.id b.instructions.length)

def returnMemoryErrors (f : KirFunction) (dominators : Dominators) (b : KirBlock) :
    KirTerminator → List String
  | .return _ memory _ => memory.flatMap fun (region, version) ↦
      memoryUseErrors f dominators b.id b.instructions.length version ++
        partitionErrors f version region
          "return memory version partition does not match returned region"
  | _ => []

def blockMemoryErrors (f : KirFunction) (dominators : Dominators) (b : KirBlock) : List String :=
  b.instructions.zipIdx.flatMap (fun (i, index) ↦
    instructionMemoryErrors f dominators b i index) ++
  b.terminator.edges.flatMap (edgeMemoryErrors f dominators b) ++
  returnMemoryErrors f dominators b b.terminator

def regionErrors (f : KirFunction) : List String :=
  let ids := f.regions.map (·.id)
  f.regions.flatMap fun region ↦
    (if region.partition ∈ ids then []
    else ["memory region r" ++ toString region.id ++ " names undefined partition r" ++
      toString region.partition]) ++
    match region.parent with
    | some parent =>
        if parent ∈ ids then []
        else ["memory region r" ++ toString region.id ++ " names undefined parent r" ++
          toString parent]
    | none => []

/-- One error for every identity that was seen before. -/
def duplicateErrors (message : String) : List Nat → List Nat → List String
  | _, [] => []
  | seen, id :: ids => (if id ∈ seen then [message] else []) ++ duplicateErrors message (id :: seen) ids

/-- The memory part of `validate_kir_module`. -/
def KirModule.memoryErrors (dominators : KirFunction → Dominators) (m : KirModule) : List String :=
  duplicateErrors "duplicate memory region id" []
    (m.functions.flatMap fun f ↦ f.regions.map (·.id)) ++
  duplicateErrors "duplicate block id" [] (m.functions.flatMap fun f ↦ f.blocks.map (·.id)) ++
  duplicateErrors "duplicate memory version definition" [] (m.functions.flatMap (·.memoryVersions)) ++
  m.functions.flatMap fun f ↦
    regionErrors f ++ f.blocks.flatMap (blockMemoryErrors f (dominators f))

theorem duplicateErrors_eq_nil {message : String} {seen ids : List Nat} :
    duplicateErrors message seen ids = [] ↔ ids.Nodup ∧ ∀ id ∈ ids, id ∉ seen := by
  induction ids generalizing seen with
  | nil => simp [duplicateErrors]
  | cons id ids ih =>
      rw [duplicateErrors, List.append_eq_nil_iff, ih]
      by_cases hid : id ∈ seen
      · simp [hid]
      · simp only [hid, if_false, true_and, List.nodup_cons, List.mem_cons, forall_eq_or_imp,
          not_or, not_false_eq_true, true_and]
        constructor
        · rintro ⟨hnodup, hne⟩
          exact ⟨⟨fun hmem ↦ (hne id hmem).1 rfl, hnodup⟩, fun x hx ↦ (hne x hx).2⟩
        · rintro ⟨⟨hnotMem, hnodup⟩, hseen⟩
          exact ⟨hnodup, fun x hx ↦ ⟨fun heq ↦ hnotMem (heq ▸ hx), hseen x hx⟩⟩

end CalcKernel
