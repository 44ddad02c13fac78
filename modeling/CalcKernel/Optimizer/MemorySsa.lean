import CalcKernel.Ir.Effects
import CalcKernel.Kir.MemoryValidation
import CalcKernel.Lib.Assoc
import CalcKernel.Lib.Components
import CalcKernel.Optimizer.Alias

/-!
# Memory SSA refinement

Partitions of the accessed regions by pairwise alias answers, and the renaming of
memory versions through all blocks.  The alias answers are a parameter.
-/

namespace CalcKernel

abbrev EffectSummaries := String → Option EffectSummary

/-- What partitioning asks of the region analysis. -/
structure AliasOracle where
  noAlias : MemoryRegionId → MemoryRegionId → Bool
  root : MemoryRegionId → Option MemoryRegionId
  regionForValue : ValueId → Option MemoryRegionId

/-- The answers of `query_alias` over `analyze_regions`. -/
def RegionAnalysis.oracle (analysis : RegionAnalysis) : AliasOracle where
  noAlias left right := (queryAlias analysis left right).kind = .noAlias
  root id := (analysis.descriptor id).map (·.root)
  regionForValue := analysis.valueRegions

/-- The oracle of a function, from its region analysis. -/
def analysisOracle (rounds : Nat) (facts : Option FactArena) (f : KirFunction) :
    Except String AliasOracle :=
  match analyzeRegions rounds f facts with
  | some (.ok analysis) => .ok analysis.oracle
  | some (.error message) => .error message
  | none => .error "region propagation is not done"

structure MemorySsaFunctionReport where
  function : FunctionId
  partitionCount : Nat
  collapsedForCall : Bool
deriving DecidableEq, Repr

/-! ## Call memory -/

/-- The memory a call works on. -/
inductive CallMemory where
  | all
  | region (region : MemoryRegionId)
  | nothing
deriving DecidableEq, Repr

/-- The region of the argument an access works on. -/
def EffectAccess.region? (oracle : AliasOracle) (args : List ValueId) (access : EffectAccess) :
    Option MemoryRegionId :=
  match access.target with
  | .all => none
  | .parameter index => args[index]?.bind oracle.regionForValue

def mapCallAccesses (oracle : AliasOracle) (accesses : List EffectAccess) (args : List ValueId) :
    CallMemory :=
  let mapped := accesses.map (·.region? oracle args)
  let regions := Lib.sortedSet mapped.reduceOption
  if none ∈ mapped ∨ 1 < regions.length then .all
  else
    match regions.head? with
    | some region => .region region
    | none => .nothing

def callMemory (oracle : AliasOracle) (summaries : EffectSummaries) (functionName : String)
    (args : List ValueId) : CallMemory :=
  match summaries functionName with
  | none => .all
  | some summary => mapCallAccesses oracle summary.accesses args

def KirInstruction.withCallMemory (i : KirInstruction) (conservative : MemoryRegionId) :
    CallMemory → KirInstruction
  | .all => { i with memory := i.memory.map fun m ↦ { m with region := conservative } }
  | .region region => { i with memory := i.memory.map fun m ↦ { m with region := region } }
  | .nothing => { i with memory := none }

def KirInstruction.mapCallMemory (oracle : AliasOracle) (summaries : EffectSummaries)
    (conservative : MemoryRegionId) (i : KirInstruction) : KirInstruction :=
  match i.kind with
  | .call functionName args =>
      i.withCallMemory conservative (callMemory oracle summaries functionName args)
  | _ => i

def KirInstructionKind.collapses (oracle : AliasOracle) (summaries : EffectSummaries) :
    KirInstructionKind → Bool
  | .call functionName args => callMemory oracle summaries functionName args = .all
  | _ => false

def KirFunction.mapInstructions (g : KirInstruction → KirInstruction) (f : KirFunction) :
    KirFunction :=
  { f with blocks := f.blocks.map fun b ↦ { b with instructions := b.instructions.map g } }

/-- `map_call_memory_regions`. -/
def mapCallMemoryRegions (oracle : AliasOracle) (summaries : EffectSummaries)
    (conservative : MemoryRegionId) (f : KirFunction) : KirFunction × Bool :=
  (f.mapInstructions (KirInstruction.mapCallMemory oracle summaries conservative),
    f.instructions.any fun i ↦ i.kind.collapses oracle summaries)

/-! ## Partitions -/

def KirInstruction.accessedRegion (i : KirInstruction) : Option MemoryRegionId :=
  match i.kind with
  | .load place | .store place _ => some place.region
  | .call _ _ => i.memory.map (·.region)
  | _ => none

def accessedRegions (f : KirFunction) : List MemoryRegionId :=
  Lib.sortedSet (f.instructions.filterMap (·.accessedRegion))

abbrev PartitionMap := MemoryRegionId → Option MemoryRegionId

/-- The components of the accessed regions under answers other than `NoAlias`. -/
def regionComponents (oracle : AliasOracle) (accessed : List MemoryRegionId) : Lib.Forest :=
  ((Lib.pairs accessed).filter fun p ↦ !oracle.noAlias p.1 p.2).foldl
    (fun forest p ↦ forest.union p.1 p.2) .discrete

/-- `plan_partitions`: a region that is a component by itself keeps its own partition. -/
def planPartitions (f : KirFunction) (oracle : AliasOracle) (conservative : MemoryRegionId) :
    PartitionMap :=
  let accessed := accessedRegions f
  let forest := regionComponents oracle accessed
  fun region ↦
    if region ∈ accessed then
      let component := accessed.filter fun r ↦ forest.find r = forest.find region
      some (if component.length = 1 ∧ region ≠ conservative then region else conservative)
    else if region ∈ f.regions.map (·.id) then some conservative
    else none

def PartitionMap.partition (map : PartitionMap) (conservative region : MemoryRegionId) :
    MemoryRegionId := (map region).getD conservative

def accessedPartitions (f : KirFunction) (map : PartitionMap) (conservative : MemoryRegionId) :
    List MemoryRegionId :=
  Lib.sortedSet ((accessedRegions f).map (map.partition conservative))

/-! ## Renaming -/

abbrev VersionMap := MemoryRegionId → Option MemoryVersionId

def allocateMemory (next : Nat) : Except String (MemoryVersionId × Nat) :=
  if next + 1 < 2 ^ 32 then .ok (next, next + 1)
  else .error "Memory SSA identity space exhausted"

/-- A fresh version for every partition. -/
def allocateVersions : List MemoryRegionId → Nat →
    Except String (List (MemoryRegionId × MemoryVersionId) × Nat)
  | [], next => .ok ([], next)
  | region :: regions, next => do
      let (version, next) ← allocateMemory next
      let (versions, next) ← allocateVersions regions next
      return ((region, version) :: versions, next)

abbrev HeadedBlock := KirBlock × List (MemoryRegionId × MemoryVersionId)

/-- The memory parameters of the blocks after the entry. -/
def allocateBlockParams (partitions : List MemoryRegionId) : List KirBlock → Nat →
    Except String (List HeadedBlock × Nat)
  | [], next => .ok ([], next)
  | b :: bs, next => do
      let (versions, next) ← allocateVersions partitions next
      let (rest, next) ← allocateBlockParams partitions bs next
      let memoryParams := versions.map fun p ↦ ⟨p.2, p.1⟩
      return (({ b with memoryParams := memoryParams }, versions) :: rest, next)

/-- The region an instruction's memory record is renamed by. -/
def KirInstruction.sourceRegion (i : KirInstruction) (memory : KirMemoryAccess) :
    MemoryRegionId :=
  match i.kind with
  | .load place | .store place _ => place.region
  | _ => memory.region

def renameInstruction (map : PartitionMap) (conservative : MemoryRegionId) (block : BlockId)
    (current : VersionMap) (i : KirInstruction) (next : Nat) :
    Except String (KirInstruction × VersionMap × Nat) :=
  match i.memory with
  | none => .ok (i, current, next)
  | some memory =>
      let partition := map.partition conservative (i.sourceRegion memory)
      match current partition with
      | none =>
          .error ("block b" ++ toString block ++ " has no current memory for partition r" ++
            toString partition)
      | some input =>
          match memory.output with
          | none => .ok ({ i with memory := some ⟨partition, input, none⟩ }, current, next)
          | some _ => do
              let (output, next) ← allocateMemory next
              return ({ i with memory := some ⟨partition, input, some output⟩ },
                Function.update current partition (some output), next)

def renameInstructions (map : PartitionMap) (conservative : MemoryRegionId) (block : BlockId) :
    VersionMap → List KirInstruction → Nat →
    Except String (List KirInstruction × VersionMap × Nat)
  | current, [], next => .ok ([], current, next)
  | current, i :: is, next => do
      let (i, current, next) ← renameInstruction map conservative block current i next
      let (is, current, next) ← renameInstructions map conservative block current is next
      return (i :: is, current, next)

def KirTerminator.withReturnMemory (partitions : List MemoryRegionId) (current : VersionMap) :
    KirTerminator → KirTerminator
  | .return value _ effectOrder =>
      .return value (partitions.filterMap fun r ↦ (current r).map fun v ↦ (r, v)) effectOrder
  | t => t

abbrev BlockEntries := List (BlockId × List (MemoryRegionId × MemoryVersionId))

/-- The versions at the head of a block; of two blocks with one identity the later counts. -/
def BlockEntries.at? (entries : BlockEntries) (block : BlockId) :
    Option (List (MemoryRegionId × MemoryVersionId)) := entries.reverse.lookup block

def renameBlocks (map : PartitionMap) (partitions : List MemoryRegionId)
    (conservative : MemoryRegionId) (entries : BlockEntries) : List KirBlock → Nat →
    Except String (List (KirBlock × VersionMap) × Nat)
  | [], next => .ok ([], next)
  | b :: bs, next => do
      let entry := (entries.at? b.id).getD []
      let (is, exit, next) ←
        renameInstructions map conservative b.id (fun r ↦ entry.lookup r) b.instructions next
      let (rest, next) ← renameBlocks map partitions conservative entries bs next
      let terminator := b.terminator.withReturnMemory partitions exit
      return (({ b with instructions := is, terminator := terminator }, exit) :: rest, next)

/-- `rewrite_edge`. -/
def rewriteEdge (exit : VersionMap) (entries : BlockEntries) (edge : KirEdge) :
    Except String KirEdge :=
  match entries.at? edge.target with
  | none => .error ("memory edge names missing target b" ++ toString edge.target)
  | some target => do
      let memoryArgs ← target.mapM fun p ↦
        match exit p.1 with
        | some version => .ok version
        | none =>
            .error ("memory edge to b" ++ toString edge.target ++
              " has no version for partition r" ++ toString p.1)
      return { edge with memoryArgs := memoryArgs }

def rewriteTerminator (exit : VersionMap) (entries : BlockEntries) :
    KirTerminator → Except String KirTerminator
  | .return value memory effectOrder => .ok (.return value memory effectOrder)
  | .jump edge => do
      let edge ← rewriteEdge exit entries edge
      return .jump edge
  | .branch condition thenEdge elseEdge => do
      let thenEdge ← rewriteEdge exit entries thenEdge
      let elseEdge ← rewriteEdge exit entries elseEdge
      return .branch condition thenEdge elseEdge

/-- The versions at the end of a block; of two blocks with one identity the later counts. -/
def exitOf (exits : List (KirBlock × VersionMap)) (block : BlockId) : VersionMap :=
  ((exits.reverse.find? fun p ↦ p.1.id = block).map (·.2)).getD fun _ ↦ none

/-- All blocks with their entry versions: the entry block has the initial ones, and no memory
parameters. -/
def headBlocks (f : KirFunction) (initial : List (MemoryRegionId × MemoryVersionId))
    (params : List HeadedBlock) : List HeadedBlock :=
  (f.blocks.head?.map fun b ↦ ({ b with memoryParams := [] }, initial)).toList ++ params

def blockEntries (headed : List HeadedBlock) : BlockEntries :=
  headed.map fun p ↦ (p.1.id, p.2)

/-- `rebuild_function_memory_ssa`. -/
def rebuildFunctionMemorySsa (f : KirFunction) (map : PartitionMap)
    (partitions : List MemoryRegionId) (conservative : MemoryRegionId) (next : Nat) :
    Except String (KirFunction × Nat) := do
  let (initial, next) ← allocateVersions partitions next
  let (params, next) ← allocateBlockParams partitions f.blocks.tail next
  let headed := headBlocks f initial params
  let entries := blockEntries headed
  let (renamed, next) ←
    renameBlocks map partitions conservative entries (headed.map (·.1)) next
  let blocks ← renamed.mapM fun p ↦ do
    let terminator ← rewriteTerminator (exitOf renamed p.1.id) entries p.1.terminator
    return { p.1 with terminator := terminator }
  let initialMemory := initial.map fun p ↦ ⟨p.1, p.2⟩
  return ({ f with initialMemory := initialMemory, blocks := blocks }, next)

/-! ## The pass -/

def KirFunction.hasCall (f : KirFunction) : Bool :=
  f.instructions.any fun i ↦
    match i.kind with
    | .call _ _ => true
    | _ => false

/-- Calls mapped to the memory they work on, and whether some call works on all of it. -/
def mapCalls (f : KirFunction) (oracle : AliasOracle) (summaries : Option EffectSummaries)
    (conservative : MemoryRegionId) : KirFunction × Bool :=
  match summaries with
  | some summaries => mapCallMemoryRegions oracle summaries conservative f
  | none => (f, f.hasCall)

def partitionRegions (f : KirFunction) (oracle : AliasOracle) (conservative : MemoryRegionId)
    (collapsed : Bool) : PartitionMap :=
  if collapsed then fun r ↦ if r ∈ f.regions.map (·.id) then some conservative else none
  else planPartitions f oracle conservative

def functionPartitions (f : KirFunction) (map : PartitionMap) (conservative : MemoryRegionId) :
    List MemoryRegionId :=
  let partitions := accessedPartitions f map conservative
  if partitions.isEmpty then [conservative] else partitions

def KirMemoryRegion.assignPartition (map : PartitionMap) (oracle : AliasOracle)
    (conservative : MemoryRegionId) (region : KirMemoryRegion) : KirMemoryRegion :=
  let partition := (map region.id).or ((oracle.root region.id).bind map)
  { region with partition := partition.getD conservative }

/-- One function of `refine_memory_ssa_impl`. -/
def refineFunction (oracle : AliasOracle) (summaries : Option EffectSummaries) (f : KirFunction)
    (next : Nat) : Except String (KirFunction × MemorySsaFunctionReport × Nat) :=
  match f.regions.find? (·.origin = .conservative) with
  | none => .error ("KIR function '" ++ f.name ++ "' has no conservative region")
  | some conservative => do
      let (mapped, collapsed) := mapCalls f oracle summaries conservative.id
      let map := partitionRegions mapped oracle conservative.id collapsed
      let partitions := functionPartitions mapped map conservative.id
      let regions := mapped.regions.map (·.assignPartition map oracle conservative.id)
      let (rebuilt, next) ← rebuildFunctionMemorySsa { mapped with regions := regions } map
        partitions conservative.id next
      return (rebuilt, ⟨f.id, partitions.length, collapsed⟩, next)

def refineFunctions (oracle : KirFunction → Except String AliasOracle)
    (summaries : Option EffectSummaries) : List KirFunction → Nat →
    Except String (List KirFunction × List MemorySsaFunctionReport × Nat)
  | [], next => .ok ([], [], next)
  | f :: fs, next => do
      let answers ← oracle f
      let (f, report, next) ← refineFunction answers summaries f next
      let (fs, reports, next) ← refineFunctions oracle summaries fs next
      return (f :: fs, report :: reports, next)

/-- The first identity above all memory versions of a module. -/
def KirModule.nextMemory (m : KirModule) : Nat :=
  match (m.functions.flatMap (·.memoryVersions)).max? with
  | none => 0
  | some maximum => min (maximum + 1) (2 ^ 32 - 1)

/-- `refine_memory_ssa_impl`. -/
def refineMemorySsa (oracle : KirFunction → Except String AliasOracle)
    (summaries : Option EffectSummaries) (m : KirModule) :
    Except String (KirModule × List MemorySsaFunctionReport) := do
  let (functions, reports, _) ← refineFunctions oracle summaries m.functions m.nextMemory
  return ({ m with functions := functions }, reports)

end CalcKernel
