import CalcKernel.Kir.Dropping
import CalcKernel.Kir.Rewiring
import CalcKernel.Lib.Rounds

/-!
# Dead code elimination

Pure instructions whose results nothing uses are removed until none is left, and then the regions
that only described such results.
-/

namespace CalcKernel

open Lib

/-! ## Dead instructions -/

/-- `is_pure`. -/
def KirInstructionKind.isPure : KirInstructionKind → Bool
  | .guard _ _ | .load _ | .store _ _ | .call _ _ | .runtimeCall _ _ => false
  | _ => true

def collectUsedValues (m : KirModule) : List ValueId :=
  m.functions.flatMap fun f ↦ f.blocks.flatMap fun b ↦
    b.instructions.flatMap (·.uses) ++ b.terminator.uses

def isDeadPureInstruction (used : List ValueId) (protected_ : List InstructionId)
    (i : KirInstruction) : Bool :=
  i.id ∉ protected_ && i.effect.isNone && i.memory.isNone && i.kind.isPure && !i.results.isEmpty &&
    i.results.all fun result ↦ result.value ∉ used

/-- One round: the uses are collected over the whole module first. -/
def removeDeadInstructions (protected_ : List InstructionId) (m : KirModule) : KirModule :=
  m.mapFunctions (·.keepOnly fun i ↦ !isDeadPureInstruction (collectUsedValues m) protected_ i)

def KirModule.instructionCount (m : KirModule) : Nat :=
  (m.functions.flatMap (·.instructions)).length

/-! ## Descriptor regions -/

/-- What the return of a terminator hands back. -/
def KirTerminator.returned : KirTerminator → List (MemoryRegionId × MemoryVersionId)
  | .return _ memory _ => memory
  | .jump _ | .branch _ _ _ => []

/-- `collect_place_regions`. -/
def KirPlace.placeRegions : KirPlace → List MemoryRegionId
  | .value _ _ region | .deref _ _ region | .sliceIndex _ _ _ region => [region]
  | .index base _ _ region | .field base _ _ region => region :: base.placeRegions

def KirInstruction.directRegions (i : KirInstruction) : List MemoryRegionId :=
  (i.memory.map (·.region)).toList ++
    match i.kind with
    | .address place | .load place | .store place _ => place.placeRegions
    | _ => []

/-- The regions a function names outside of its region table. -/
def KirFunction.directRegions (f : KirFunction) : List MemoryRegionId :=
  f.initialMemory.map (·.region) ++ f.blocks.flatMap fun b ↦
    b.memoryParams.map (·.region) ++ b.terminator.returned.map (·.1) ++
      b.instructions.flatMap (·.directRegions)

/-- One round over the table: what nothing refers to and describes no value is removed. -/
def KirFunction.descriptorRound (f : KirFunction) (regions : List KirMemoryRegion) :
    List KirMemoryRegion :=
  let referenced := f.directRegions ++ regions.flatMap fun r ↦ r.parent.toList ++ [r.partition]
  regions.filter fun region ↦ region.id ∈ referenced ||
    match region.origin with
    | .rawSlice value | .subslice value => value ∈ f.valueIds
    | .conservative | .parameter _ => true

def KirFunction.removeDeadDescriptorRegions (f : KirFunction) : Option KirFunction :=
  (rounds f.descriptorRound List.length (f.regions.length + 1) f.regions).map fun regions ↦
    { f with regions := regions }

/-- `run_dead_code_elimination`. -/
def runDeadCodeElimination (m : KirModule) (protected_ : List InstructionId) :
    Option KirModule := do
  let m ← rounds (removeDeadInstructions protected_) KirModule.instructionCount
    (m.instructionCount + 1) m
  (m.functions.mapM KirFunction.removeDeadDescriptorRegions).map fun functions ↦
    { m with functions := functions }

/-! ## The rounds end -/

section Rounds

variable {m : KirModule} {p : KirInstruction → Bool} {f : KirFunction}

theorem KirFunction.keepOnly_eq_self (h : ∀ i ∈ f.instructions, p i = true) :
    f.keepOnly p = f := by
  unfold KirFunction.keepOnly
  rw [show f.blocks.map (·.keepOnly p) = f.blocks from ?_]
  refine (List.map_congr_left fun b hb ↦ ?_).trans (List.map_id' f.blocks)
  unfold KirBlock.keepOnly
  rw [List.filter_eq_self.mpr fun i hi ↦ h i (List.mem_flatMap.mpr ⟨b, hb, hi⟩)]

theorem KirModule.mapFunctions_eq_self {T : KirFunction → KirFunction}
    (h : ∀ f ∈ m.functions, T f = f) : m.mapFunctions T = m := by
  rw [mapFunctions, (List.map_congr_left h).trans (List.map_id' m.functions)]

theorem KirModule.keepOnly_instructions :
    (m.mapFunctions (·.keepOnly p)).functions.flatMap (·.instructions) =
      (m.functions.flatMap (·.instructions)).filter p := by
  rw [mapFunctions, List.flatMap_map, List.filter_flatMap]
  exact List.flatMap_congr fun f _ ↦ KirFunction.keepOnly_instructions

theorem shrinks_removeDeadInstructions (protected_ : List InstructionId) :
    Shrinks (removeDeadInstructions protected_) KirModule.instructionCount where
  le m := by
    rw [removeDeadInstructions, KirModule.instructionCount, KirModule.keepOnly_instructions]
    exact List.length_filter_le _ _
  fixed m h := by
    rw [removeDeadInstructions, KirModule.instructionCount, KirModule.keepOnly_instructions,
      KirModule.instructionCount, List.length_filter_eq_length_iff] at h
    exact KirModule.mapFunctions_eq_self fun f hf ↦ KirFunction.keepOnly_eq_self fun i hi ↦
      h i (List.mem_flatMap.mpr ⟨f, hf, hi⟩)

theorem shrinks_descriptorRound (f : KirFunction) : Shrinks f.descriptorRound List.length where
  le _ := List.length_filter_le _ _
  fixed _ h := List.filter_eq_self.mpr (List.length_filter_eq_length_iff.mp h)

/-- What the rounds leave alone holds nothing dead. -/
theorem not_dead_of_fixed {protected_ : List InstructionId}
    (h : removeDeadInstructions protected_ m = m) {i : KirInstruction}
    (hi : i ∈ m.functions.flatMap (·.instructions)) :
    isDeadPureInstruction (collectUsedValues m) protected_ i = false := by
  have hsame := congrArg (fun m : KirModule ↦ m.functions.flatMap (·.instructions)) h
  rw [removeDeadInstructions, KirModule.keepOnly_instructions] at hsame
  simpa using List.filter_eq_self.mp hsame i hi

end Rounds

/-! ## Runs -/

section Runs

variable {m : KirModule} {protected_ : List InstructionId}

/-- Every vector store records the memory it writes. -/
def KirModule.StoresRecorded (m : KirModule) : Prop :=
  ∀ i ∈ m.functions.flatMap (·.instructions), ∀ access v region,
    i.kind = .vectorStore access v region → i.memory ≠ none

theorem isComputed_of_dead {i : KirInstruction} {used : List ValueId}
    (hstores : ∀ access v region, i.kind = .vectorStore access v region → i.memory ≠ none)
    (h : isDeadPureInstruction used protected_ i = true) :
    i.isComputed ∧ ∀ v ∈ i.defs, v ∉ used := by
  simp only [isDeadPureInstruction, Bool.and_eq_true, List.all_eq_true, Option.isNone_iff_eq_none,
    decide_eq_true_eq] at h
  obtain ⟨⟨⟨⟨⟨-, -⟩, hmemory⟩, hpure⟩, -⟩, hunused⟩ := h
  refine ⟨?_, fun v hv ↦ ?_⟩
  · unfold KirInstruction.isComputed
    cases hkind : i.kind with
    | vectorStore access v region => exact absurd hmemory (hstores access v region hkind)
    | guard | store | call | runtimeCall =>
        rw [hkind] at hpure
        cases hpure
    | _ => rfl
  · obtain ⟨result, hresult, rfl⟩ := List.mem_map.mp hv
    exact hunused result hresult

theorem mem_collectUsedValues {f : KirFunction} (hf : f ∈ m.functions) {b : KirBlock}
    (hb : b ∈ f.blocks) {v : ValueId}
    (hv : (∃ i ∈ b.instructions, v ∈ i.uses) ∨ v ∈ b.terminator.uses) :
    v ∈ collectUsedValues m := by
  refine List.mem_flatMap.mpr ⟨f, hf, List.mem_flatMap.mpr ⟨b, hb, List.mem_append.mpr ?_⟩⟩
  rcases hv with ⟨i, hi, hv⟩ | hv
  · exact .inl (List.mem_flatMap.mpr ⟨i, hi, hv⟩)
  · exact .inr hv

/-- The instructions of one round compute nothing that is used. -/
theorem droppable_dead (hstores : m.StoresRecorded) {f : KirFunction} (hf : f ∈ m.functions) :
    f.Droppable (fun i ↦ !isDeadPureInstruction (collectUsedValues m) protected_ i)
      (· ∈ collectUsedValues m) where
  kept b hb i hi _ v hv := mem_collectUsedValues hf hb (.inl ⟨i, hi, hv⟩)
  terminator b hb v hv := mem_collectUsedValues hf hb (.inr hv)
  dropped b hb i hi hdead := by
    have hmem : i ∈ m.functions.flatMap (·.instructions) :=
      List.mem_flatMap.mpr ⟨f, hf, List.mem_flatMap.mpr ⟨b, hb, hi⟩⟩
    have hdead : isDeadPureInstruction (collectUsedValues m) protected_ i = true := by
      simpa using hdead
    obtain ⟨hcomputed, hunused⟩ := isComputed_of_dead (hstores i hmem) hdead
    exact KirFunction.idle_of_isComputed hcomputed hunused

theorem removeDeadInstructions_refined (hstores : m.StoresRecorded) :
    m.RefinedBy (removeDeadInstructions protected_ m) :=
  KirModule.refinedBy_keepOnly fun _ hf ↦ droppable_dead hstores hf

theorem storesRecorded_keepOnly (hstores : m.StoresRecorded) (p : KirInstruction → Bool) :
    (m.mapFunctions (·.keepOnly p)).StoresRecorded := by
  intro i hi
  rw [KirModule.keepOnly_instructions] at hi
  exact hstores i (List.mem_of_mem_filter hi)

theorem iterate_refined (hstores : m.StoresRecorded) (n : Nat) :
    m.RefinedBy ((removeDeadInstructions protected_)^[n] m) := by
  induction n generalizing m with
  | zero => exact KirModule.RefinedBy.refl m
  | succ n ih =>
      exact (removeDeadInstructions_refined hstores).trans (ih (storesRecorded_keepOnly hstores _))

/-- The region table plays no part in a run. -/
theorem removeDeadDescriptorRegions_eq (f : KirFunction) :
    ∃ n, f.removeDeadDescriptorRegions =
      some { f with regions := f.descriptorRound^[n] f.regions } ∧
      f.descriptorRound (f.descriptorRound^[n] f.regions) = f.descriptorRound^[n] f.regions := by
  obtain ⟨n, hn, hfixed⟩ := (shrinks_descriptorRound f).rounds_eq (Nat.lt_succ_self _)
  exact ⟨n, by rw [KirFunction.removeDeadDescriptorRegions, hn, Option.map_some], hfixed⟩

end Runs

end CalcKernel
