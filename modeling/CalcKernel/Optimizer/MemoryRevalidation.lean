import Mathlib.Data.List.Zip
import CalcKernel.Optimizer.MemoryThreading

/-!
# A threaded function passes the memory checks

Every use of a version in a threaded function is of an initial version or of one
defined earlier in the same block, so no dominator table is asked.
-/

namespace CalcKernel

theorem mem_outputEntries {b : KirBlock} {i : KirInstruction} {k : Nat}
    (h : b.instructions[k]? = some i) {memory : KirMemoryAccess} (hmemory : i.memory = some memory)
    {output : MemoryVersionId} (houtput : memory.output = some output) :
    ⟨output, memory.region, .instruction b.id k⟩ ∈ b.outputEntries := by
  refine List.mem_filterMap.mpr ⟨(i, k), ?_, by simp [hmemory, houtput]⟩
  exact List.mk_mem_zipIdx_iff_getElem?.mpr h

theorem outputEntries_versions (b : KirBlock) :
    b.outputEntries.map (·.version) =
      b.instructions.filterMap fun i ↦ i.memory.bind (·.output) := by
  unfold KirBlock.outputEntries
  rw [List.map_filterMap, ← List.zipIdx_map_fst 0 b.instructions, List.filterMap_map,
    List.zipIdx_map_fst]
  refine List.filterMap_congr fun p _ ↦ ?_
  cases hmemory : p.1.memory with
  | none => simp [hmemory]
  | some memory => cases houtput : memory.output <;> simp [hmemory, houtput]

theorem memoryDefinitions_versions (f : KirFunction) :
    f.memoryDefinitions.map (·.version) = f.memoryVersions := by
  simp only [KirFunction.memoryDefinitions, KirFunction.memoryVersions, List.map_append,
    List.map_map, List.map_flatMap, outputEntries_versions]
  rfl

section Definitions

variable {g : KirFunction} (h : g.memoryVersions.Nodup)
include h

theorem memoryDefinition?_of_mem {entry : MemoryDefinitionEntry}
    (hentry : entry ∈ g.memoryDefinitions) :
    g.memoryDefinition? entry.version = some entry.definition := by
  rw [← memoryDefinitions_versions] at h
  rw [KirFunction.memoryDefinition?, Lib.find?_of_mem _ h hentry, Option.map_some]

theorem versionRegion?_of_mem {entry : MemoryDefinitionEntry}
    (hentry : entry ∈ g.memoryDefinitions) :
    g.versionRegion? entry.version = some entry.region := by
  rw [← memoryDefinitions_versions] at h
  rw [KirFunction.versionRegion?, Lib.find?_of_mem MemoryDefinitionEntry.version
    (by simpa using h) (List.mem_reverse.mpr hentry), Option.map_some]

end Definitions

/-- The version belongs to the partition, and is defined before this place of the block. -/
def DefinedBefore (g : KirFunction) (block : BlockId) (index : Nat) (region : MemoryRegionId)
    (version : MemoryVersionId) : Prop :=
  ∃ definition, ⟨version, region, definition⟩ ∈ g.memoryDefinitions ∧
    ∀ dominators, definition.reaches dominators block index

theorem DefinedBefore.mono {g : KirFunction} {block : BlockId} {index index' : Nat}
    {region : MemoryRegionId} {version : MemoryVersionId}
    (h : DefinedBefore g block index region version) (hle : index ≤ index') :
    DefinedBefore g block index' region version := by
  obtain ⟨definition, hmem, hreaches⟩ := h
  refine ⟨definition, hmem, fun dominators ↦ ?_⟩
  have hreach := hreaches dominators
  cases definition with
  | initial => rfl
  | blockParam b => exact hreach
  | instruction b k =>
      simp only [MemoryDefinition.reaches] at hreach ⊢
      split at hreach
      · rename_i hb
        rw [if_pos hb]
        simp only [decide_eq_true_eq] at hreach ⊢
        omega
      · rename_i hb
        rw [if_neg hb]
        exact hreach

theorem DefinedBefore.useErrors {g : KirFunction} (hnodup : g.memoryVersions.Nodup)
    {block : BlockId} {index : Nat} {region : MemoryRegionId} {version : MemoryVersionId}
    (h : DefinedBefore g block index region version) (dominators : Dominators) :
    memoryUseErrors g dominators block index version = [] := by
  obtain ⟨definition, hmem, hreaches⟩ := h
  have hfound := memoryDefinition?_of_mem hnodup hmem
  simp only at hfound
  simp only [memoryUseErrors, hfound, hreaches dominators, if_true]

theorem DefinedBefore.partitionErrors {g : KirFunction} (hnodup : g.memoryVersions.Nodup)
    {block : BlockId} {index : Nat} {region : MemoryRegionId} {version : MemoryVersionId}
    (h : DefinedBefore g block index region version) (message : String) :
    partitionErrors g version region message = [] := by
  obtain ⟨definition, hmem, _⟩ := h
  have hfound := versionRegion?_of_mem hnodup hmem
  simp only at hfound
  simp only [CalcKernel.partitionErrors, hfound, if_true]

/-- Along a chain every input, and every version at the end, is defined before its place. -/
theorem Chained.defined {g : KirFunction} {b : KirBlock} (hb : b ∈ g.blocks)
    {current exit : VersionMap} {done is : List KirInstruction} (h : Chained current is exit)
    (hsplit : b.instructions = done ++ is)
    (hcurrent : ∀ r v, current r = some v → DefinedBefore g b.id done.length r v) :
    (∀ i index, (i, index) ∈ is.zipIdx done.length → ∀ memory, i.memory = some memory →
      DefinedBefore g b.id index memory.region memory.input) ∧
    ∀ r v, exit r = some v → DefinedBefore g b.id b.instructions.length r v := by
  induction is generalizing current done with
  | nil =>
      have hexit : exit = current := h
      subst hexit
      rw [List.append_nil] at hsplit
      exact ⟨by simp, hsplit ▸ hcurrent⟩
  | cons i is ih =>
      have hsplit' : b.instructions = (done ++ [i]) ++ is := by simpa using hsplit
      have hlater : ∀ r v, current r = some v →
          DefinedBefore g b.id (done ++ [i]).length r v :=
        fun r v hv ↦ (hcurrent r v hv).mono (by simp)
      have hstep : ∀ next, Chained next is exit →
          (∀ r v, next r = some v → DefinedBefore g b.id (done ++ [i]).length r v) →
          (∀ memory, i.memory = some memory → current memory.region = some memory.input) →
          (∀ j index, (j, index) ∈ (i :: is).zipIdx done.length → ∀ memory,
            j.memory = some memory → DefinedBefore g b.id index memory.region memory.input) ∧
          ∀ r v, exit r = some v → DefinedBefore g b.id b.instructions.length r v := by
        intro next hnext hdefined hinput
        obtain ⟨hrest, hexit⟩ := ih hnext hsplit' hdefined
        refine ⟨fun j index hj memory hmemory ↦ ?_, hexit⟩
        rw [List.zipIdx_cons, List.mem_cons] at hj
        rcases hj with heq | hj
        · cases heq
          exact hcurrent _ _ (hinput memory hmemory)
        · exact hrest j index (by simpa using hj) memory hmemory
      simp only [Chained] at h
      split at h
      case h_1 hmemory => exact hstep current h hlater (by simp [hmemory])
      case h_2 memory hmemory =>
      obtain ⟨hinput, h⟩ := h
      have hinputs : ∀ memory', i.memory = some memory' →
          current memory'.region = some memory'.input := by
        rintro memory' hmemory'
        cases hmemory.symm.trans hmemory'
        exact hinput
      split at h
      case h_1 => exact hstep current h hlater hinputs
      case h_2 output houtput =>
      refine hstep _ h.2 (fun r v hv ↦ ?_) hinputs
      rw [Function.update_apply] at hv
      split at hv
      · rename_i hr
        cases hv
        subst hr
        have hat : b.instructions[done.length]? = some i := by simp [hsplit]
        refine ⟨.instruction b.id done.length, ?_, fun dominators ↦ by
          simp [MemoryDefinition.reaches]⟩
        exact List.mem_append_right _ (List.mem_flatMap.mpr
          ⟨b, hb, List.mem_append_right _ (mem_outputEntries hat hmemory houtput)⟩)
      · exact hlater r v hv

section Threaded

variable {g : KirFunction} {partitions : List MemoryRegionId} {exit : BlockId → VersionMap}

theorem headVersions_defined {b : KirBlock} (hb : b ∈ g.blocks) {r : MemoryRegionId}
    {v : MemoryVersionId} (h : (g.headVersions b).lookup r = some v) :
    DefinedBefore g b.id 0 r v := by
  have hmem := Lib.mem_of_lookup h
  unfold KirFunction.headVersions at hmem
  split at hmem
  · obtain ⟨memory, hmemory, heq⟩ := List.mem_map.mp hmem
    cases heq
    exact ⟨.initial, List.mem_append_left _ (List.mem_map.mpr ⟨memory, hmemory, rfl⟩),
      fun _ ↦ rfl⟩
  · obtain ⟨param, hparam, heq⟩ := List.mem_map.mp hmem
    cases heq
    refine ⟨.blockParam b.id, List.mem_append_right _ (List.mem_flatMap.mpr ⟨b, hb,
      List.mem_append_left _ (List.mem_map.mpr ⟨param, hparam, rfl⟩)⟩), fun _ ↦ ?_⟩
    simp [MemoryDefinition.reaches]

variable (h : MemoryThreaded g partitions exit)
include h

theorem MemoryThreaded.defined {b : KirBlock} (hb : b ∈ g.blocks) :
    (∀ i index, (i, index) ∈ b.instructions.zipIdx → ∀ memory, i.memory = some memory →
      DefinedBefore g b.id index memory.region memory.input) ∧
    ∀ r v, exit b.id r = some v → DefinedBefore g b.id b.instructions.length r v :=
  @Chained.defined g b hb _ _ [] _ (h.chained b hb) rfl fun _ _ hv ↦ headVersions_defined hb hv

/-- Only the entry block has no memory parameters. -/
theorem MemoryThreaded.params_of_not_entry {b : KirBlock} (hb : b ∈ g.blocks)
    (hentry : g.blocks.head?.map (·.id) ≠ some b.id) :
    b.memoryParams.map (·.region) = partitions := by
  refine h.params b ?_
  cases hblocks : g.blocks with
  | nil => rw [hblocks] at hb; cases hb
  | cons b₀ bs =>
      rw [hblocks] at hb hentry
      rcases List.mem_cons.mp hb with rfl | hb
      · exact absurd rfl hentry
      · exact hb

/-- An edge passes each partition's version at the end of its block. -/
theorem MemoryThreaded.exit_args {b : KirBlock} (hb : b ∈ g.blocks) {edge : KirEdge}
    (hedge : edge ∈ b.terminator.edges) :
    List.Forall₂ (fun r v ↦ exit b.id r = some v) partitions edge.memoryArgs := by
  have hmaps : List.Forall₂ (· = ·) (partitions.map (exit b.id)) (edge.memoryArgs.map some) :=
    List.forall₂_eq_eq_eq ▸ (h.edges b hb edge hedge).2.symm
  rwa [List.forall₂_map_left_iff, List.forall₂_map_right_iff] at hmaps

theorem MemoryThreaded.edgeErrors (dominators : Dominators) {b : KirBlock} (hb : b ∈ g.blocks)
    {edge : KirEdge} (hedge : edge ∈ b.terminator.edges)
    (hentry : g.blocks.head?.map (·.id) ≠ some edge.target) :
    edgeMemoryErrors g dominators b edge = [] := by
  obtain ⟨⟨target, htarget, hid⟩, _⟩ := h.edges b hb edge hedge
  have hfind : g.blocks.reverse.find? (·.id = edge.target) = some target := by
    rw [← hid]
    exact Lib.find?_of_mem _ (by simpa using h.blockIds) (List.mem_reverse.mpr htarget)
  have hparams := h.params_of_not_entry htarget (hid ▸ hentry)
  have hexit := h.exit_args hb hedge
  have hlenArgs : edge.memoryArgs.length = partitions.length := hexit.length_eq.symm
  have hlenParams : target.memoryParams.length = partitions.length := by
    simpa using congrArg List.length hparams
  simp only [edgeMemoryErrors, hfind, List.append_eq_nil_iff, List.flatMap_eq_nil_iff]
  refine ⟨⟨by rw [if_pos (hlenArgs.trans hlenParams.symm)], ?_⟩, ?_⟩
  · rintro ⟨argument, param⟩ hmem
    have hzip : (param.region, argument) ∈ partitions.zip edge.memoryArgs := by
      rw [← hparams, List.zip_map_left, List.mem_map]
      refine ⟨(param, argument), ?_, rfl⟩
      rw [← List.zip_swap]
      exact List.mem_map_of_mem hmem
    exact ((h.defined hb).2 _ _ (List.forall₂_zip hexit hzip)).partitionErrors h.versions _
  · intro argument hargument
    obtain ⟨r, _, hr⟩ := Lib.forall₂_mem_right hexit hargument
    exact ((h.defined hb).2 _ _ hr).useErrors h.versions dominators

/-- No block of a threaded function breaks a memory check, given that no edge leads to the entry
block and the records pass their own checks. -/
theorem MemoryThreaded.blockErrors (dominators : Dominators) {b : KirBlock} (hb : b ∈ g.blocks)
    (hentry : ∀ edge ∈ b.terminator.edges, g.blocks.head?.map (·.id) ≠ some edge.target)
    (hrecords : ∀ i ∈ b.instructions, i.recordErrors g = []) :
    blockMemoryErrors g dominators b = [] := by
  simp only [blockMemoryErrors, List.append_eq_nil_iff, List.flatMap_eq_nil_iff]
  refine ⟨⟨?_, fun edge hedge ↦ h.edgeErrors dominators hb hedge (hentry edge hedge)⟩, ?_⟩
  · rintro ⟨i, index⟩ hi
    have hmem : i ∈ b.instructions := (List.mem_zipIdx' hi).2 ▸ List.getElem_mem _
    simp only [instructionMemoryErrors, hrecords i hmem, List.nil_append]
    split
    · rfl
    · rename_i memory hmemory
      have hdefined := (h.defined hb).1 i index hi memory hmemory
      rw [hdefined.useErrors h.versions, hdefined.partitionErrors h.versions, List.append_nil]
  · unfold returnMemoryErrors
    split
    · rename_i value memory effectOrder hreturn
      rw [List.flatMap_eq_nil_iff]
      rintro ⟨r, v⟩ hmem
      rw [h.returns b hb _ _ _ hreturn, List.mem_filterMap] at hmem
      obtain ⟨r', _, hv⟩ := hmem
      obtain ⟨v', hv', heq⟩ := Option.map_eq_some_iff.mp hv
      cases heq
      have hdefined := (h.defined hb).2 _ _ hv'
      simp only [hdefined.useErrors h.versions, hdefined.partitionErrors h.versions,
        List.append_nil]
    · rfl

end Threaded

end CalcKernel
