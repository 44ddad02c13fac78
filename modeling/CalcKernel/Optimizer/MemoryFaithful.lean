import Mathlib.Order.CompletePartialOrder
import Mathlib.Data.List.ReduceOption
import Mathlib.Data.Set.Lattice
import CalcKernel.Optimizer.MemoryHistory

/-!
# Refinement is faithful

For every alias oracle whose `NoAlias` answers are right: accesses that may overlap
belong to one partition, the refined module passes the memory checks, and the
version an access names was written by the last write that it may observe.
-/

namespace CalcKernel

/-! ## What an instruction can touch -/

section Touches

variable (oracle : AliasOracle) (bytes : MemoryRegionId → Set Int)

def EffectAccess.touches (args : List ValueId) (access : EffectAccess) : Set Int :=
  match access.region? oracle args with
  | some region => bytes region
  | none => Set.univ

/-- The locations an instruction can touch, given the locations of every region: those of the
place of a load or store, and those of the mapped parameter effects of a call. -/
def KirInstructionKind.touches (summaries : Option EffectSummaries) : KirInstructionKind → Set Int
  | .load place | .store place _ => bytes place.region
  | .call functionName args =>
      match summaries.bind (· functionName) with
      | some summary => {a | ∃ access ∈ summary.accesses, a ∈ access.touches oracle bytes args}
      | none => Set.univ
  | .vectorLoad access _ | .vectorStore access _ _ =>
      match oracle.regionForValue access.slice with
      | some region => bytes region
      | none => Set.univ
  | _ => ∅

end Touches

/-- Stores, and calls that have any effect on memory. -/
def KirInstructionKind.mayWrite (summaries : Option EffectSummaries) : KirInstructionKind → Bool
  | .store _ _ | .vectorStore _ _ _ => true
  | .call functionName _ =>
      match summaries.bind (· functionName) with
      | some summary => !summary.accesses.isEmpty
      | none => true
  | _ => false

def KirInstructionKind.isVectorAccess : KirInstructionKind → Bool
  | .vectorLoad _ _ | .vectorStore _ _ _ => true
  | _ => false

def KirInstructionKind.isScalarAccess : KirInstructionKind → Bool
  | .load _ | .store _ _ | .call _ _ => true
  | _ => false

/-- What the pass takes for granted: no vector accesses, no edge back to the entry block, and a
record with an output on everything that may write. -/
structure KirFunction.Refinable (summaries : Option EffectSummaries) (f : KirFunction) : Prop where
  scalar : ∀ i ∈ f.instructions, i.kind.isVectorAccess = false
  entry : ∀ b ∈ f.blocks, ∀ edge ∈ b.terminator.edges,
    f.blocks.head?.map (·.id) ≠ some edge.target
  recorded : ∀ i ∈ f.instructions, i.kind.mayWrite summaries →
    i.memory.any (·.output.isSome)

/-- In every activation, the version a load, store or call names as input stands for the last
write to its partition, and every executed instruction that may have written a location the access
can touch wrote to that partition, then or before. -/
def FaithfulHistory (oracle : AliasOracle) (bytes : MemoryRegionId → Set Int)
    (summaries : Option EffectSummaries) (g : KirFunction) : Prop :=
  ∀ (t : TargetModel) (past : List Moment) (frame : Frame) (memory : Memory),
    Activation t g past frame memory →
    ∀ (i : KirInstruction) (rest : List KirInstruction), frame.rest = i :: rest →
      i.kind.isScalarAccess → ∀ access, i.memory = some access →
        writtenSince past access.input = lastWrite access.region past ∧
        ∀ (j : KirInstruction) (env : Env) (older : List Moment),
          ⟨.execute j, env⟩ :: older <:+ past → j.kind.mayWrite summaries →
            (j.kind.touches oracle bytes summaries ∩
              i.kind.touches oracle bytes summaries).Nonempty →
              j.WritesTo access.region ∧
                ⟨.execute j, env⟩ :: older <:+ writtenSince past access.input

/-! ## Partitions -/

section Partitions

variable {oracle : AliasOracle} {bytes : MemoryRegionId → Set Int}
variable {summaries : Option EffectSummaries}

/-- Accessed regions that share a location share a partition. -/
theorem planPartitions_eq (hsound : ∀ l r, oracle.noAlias l r → Disjoint (bytes l) (bytes r))
    {f : KirFunction} {conservative l r : MemoryRegionId} (hl : l ∈ accessedRegions f)
    (hr : r ∈ accessedRegions f) (hmeet : (bytes l ∩ bytes r).Nonempty) :
    (planPartitions f oracle conservative).partition conservative l =
      (planPartitions f oracle conservative).partition conservative r := by
  by_cases heq : l = r
  · rw [heq]
  have hdenied : ∀ a b, (a = l ∧ b = r ∨ a = r ∧ b = l) → oracle.noAlias a b = false := by
    intro a b hab
    rw [Bool.eq_false_iff]
    intro hanswer
    obtain ⟨x, hxl, hxr⟩ := hmeet
    rcases hab with ⟨rfl, rfl⟩ | ⟨rfl, rfl⟩
    · exact Set.disjoint_left.mp (hsound _ _ hanswer) hxl hxr
    · exact Set.disjoint_left.mp (hsound _ _ hanswer) hxr hxl
  have hfind : (regionComponents oracle (accessedRegions f)).find l =
      (regionComponents oracle (accessedRegions f)).find r := by
    rcases Lib.mem_pairs hl hr heq with hpair | hpair
    · refine Lib.Forest.find_foldl_union (.inl (List.mem_filter.mpr ⟨hpair, ?_⟩))
      simp [hdenied l r (.inl ⟨rfl, rfl⟩)]
    · refine (Lib.Forest.find_foldl_union (.inl (List.mem_filter.mpr ⟨hpair, ?_⟩))).symm
      simp [hdenied r l (.inr ⟨rfl, rfl⟩)]
  have hshared : ∀ q, q = l ∨ q = r → ((accessedRegions f).filter fun x ↦
      (regionComponents oracle (accessedRegions f)).find x =
        (regionComponents oracle (accessedRegions f)).find q).length ≠ 1 := by
    intro q hq hone
    obtain ⟨c, hc⟩ := List.length_eq_one_iff.mp hone
    have hmem : ∀ x, x = l ∨ x = r → x = c := by
      intro x hx
      have hin : x ∈ (accessedRegions f).filter fun x ↦
          (regionComponents oracle (accessedRegions f)).find x =
            (regionComponents oracle (accessedRegions f)).find q := by
        rw [List.mem_filter, decide_eq_true_eq]
        rcases hx with rfl | rfl <;> rcases hq with rfl | rfl
        · exact ⟨hl, rfl⟩
        · exact ⟨hl, hfind⟩
        · exact ⟨hr, hfind.symm⟩
        · exact ⟨hr, rfl⟩
      rw [hc] at hin
      exact List.mem_singleton.mp hin
    exact heq ((hmem l (.inl rfl)).trans (hmem r (.inr rfl)).symm)
  simp only [PartitionMap.partition, planPartitions, hl, hr, if_true, Option.getD_some,
    hshared l (.inl rfl), hshared r (.inr rfl), false_and, if_false]

/-- A call mapped to one region touches nothing else. -/
theorem mapCallAccesses_region {accesses : List EffectAccess} {args : List ValueId}
    {region : MemoryRegionId} (h : mapCallAccesses oracle accesses args = .region region)
    {access : EffectAccess} (haccess : access ∈ accesses) :
    access.touches oracle bytes args = bytes region := by
  unfold mapCallAccesses at h
  simp only at h
  split at h
  case isTrue => cases h
  case isFalse hall =>
  rw [not_or] at hall
  obtain ⟨hsome, hlen⟩ := hall
  split at h
  case h_2 => cases h
  case h_1 r hhead =>
  cases h
  have hmapped : access.region? oracle args ∈ accesses.map (·.region? oracle args) :=
    List.mem_map_of_mem haccess
  cases hregion : access.region? oracle args with
  | none => exact absurd (hregion ▸ hmapped) hsome
  | some q =>
      have hq : q ∈ Lib.sortedSet (accesses.map (·.region? oracle args)).reduceOption := by
        rw [Lib.mem_sortedSet, List.reduceOption_mem_iff]
        exact hregion ▸ hmapped
      have hsame : q = region := by
        generalize Lib.sortedSet (accesses.map (·.region? oracle args)).reduceOption = regions
          at hq hhead hlen
        match regions, hhead, hlen, hq with
        | [_], hhead, _, hq =>
            rw [List.mem_singleton.mp hq]
            exact Option.some.inj hhead
        | _ :: _ :: _, _, hlen, _ => simp at hlen
      simp only [EffectAccess.touches, hregion, hsame]

/-- A call mapped to no region touches nothing. -/
theorem mapCallAccesses_nothing {accesses : List EffectAccess} {args : List ValueId}
    (h : mapCallAccesses oracle accesses args = .nothing) : accesses = [] := by
  unfold mapCallAccesses at h
  simp only at h
  split at h
  case isTrue => cases h
  case isFalse hall =>
  rw [not_or] at hall
  split at h
  case h_1 => cases h
  case h_2 hhead =>
  rw [List.eq_nil_iff_forall_not_mem]
  intro access haccess
  cases hregion : access.region? oracle args with
  | none => exact hall.1 (hregion ▸ List.mem_map_of_mem haccess)
  | some q =>
      have hq : q ∈ Lib.sortedSet (accesses.map (·.region? oracle args)).reduceOption := by
        rw [Lib.mem_sortedSet, List.reduceOption_mem_iff]
        exact hregion ▸ List.mem_map_of_mem haccess
      rw [List.head?_eq_none_iff.mp hhead] at hq
      cases hq

section Mapped

variable {f : KirFunction} {conservative : MemoryRegionId}

theorem mapInstructions_instructions (g : KirInstruction → KirInstruction) (f : KirFunction) :
    (f.mapInstructions g).instructions = f.instructions.map g := by
  simp only [KirFunction.instructions, KirFunction.mapInstructions, List.flatMap_map,
    List.map_flatMap]

theorem mapCallMemory_kind (summaries : EffectSummaries) (i : KirInstruction) :
    (i.mapCallMemory oracle summaries conservative).kind = i.kind := by
  unfold KirInstruction.mapCallMemory
  split
  · unfold KirInstruction.withCallMemory
    split <;> rfl
  · rfl

theorem callMemory_touches {summaries : EffectSummaries} {functionName : String}
    {args : List ValueId} {region : MemoryRegionId}
    (h : callMemory oracle summaries functionName args = .region region) :
    (KirInstructionKind.call functionName args).touches oracle bytes (some summaries) ⊆
      bytes region := by
  unfold callMemory at h
  split at h
  case h_1 => cases h
  case h_2 summary hsummary =>
  simp only [KirInstructionKind.touches, Option.bind_some, hsummary]
  rintro a ⟨access, haccess, ha⟩
  rwa [mapCallAccesses_region h haccess] at ha

/-- In a function where no call works on all memory, an access is recorded under a region whose
locations it stays in. -/
theorem mapCalls_touches {mapped : KirFunction} (bytes : MemoryRegionId → Set Int)
    (hmap : mapCalls f oracle summaries conservative = (mapped, false)) {i : KirInstruction}
    (hi : i ∈ mapped.instructions) (haccess : i.kind.isScalarAccess) {memory : KirMemoryAccess}
    (hmemory : i.memory = some memory) :
    i.accessedRegion = some (i.sourceRegion memory) ∧
      i.kind.touches oracle bytes summaries ⊆ bytes (i.sourceRegion memory) := by
  cases hkind : i.kind with
  | load place | store place =>
      simp only [KirInstruction.accessedRegion, KirInstruction.sourceRegion, hkind,
        KirInstructionKind.touches, true_and]
      exact Set.Subset.rfl
  | call functionName args =>
      simp only [KirInstruction.accessedRegion, KirInstruction.sourceRegion, hkind, hmemory,
        Option.map_some, true_and]
      cases summaries with
      | none =>
          obtain ⟨rfl, hnone⟩ := Prod.mk.inj hmap
          have hcall : f.hasCall = true :=
            List.any_eq_true.mpr ⟨i, hi, by simp [hkind]⟩
          exact absurd (hcall.symm.trans hnone) (by simp)
      | some summaries =>
          obtain ⟨rfl, hcollapsed⟩ := Prod.mk.inj hmap
          rw [mapInstructions_instructions, List.mem_map] at hi
          obtain ⟨i₀, hi₀, rfl⟩ := hi
          rw [mapCallMemory_kind] at hkind
          simp only [KirInstruction.mapCallMemory, hkind] at hmemory
          cases hcall : callMemory oracle summaries functionName args with
          | all =>
              have hany := List.any_eq_false.mp hcollapsed i₀ hi₀
              simp [KirInstructionKind.collapses, hkind, hcall] at hany
          | nothing => simp [hcall, KirInstruction.withCallMemory] at hmemory
          | region region =>
              rw [hcall] at hmemory
              obtain ⟨_, _, rfl⟩ := Option.map_eq_some_iff.mp hmemory
              exact callMemory_touches hcall
  | _ => simp [hkind, KirInstructionKind.isScalarAccess] at haccess

/-- Mapping calls changes nothing but the memory records of calls. -/
theorem mapCalls_instruction {mapped : KirFunction} {collapsed : Bool}
    (hmap : mapCalls f oracle summaries conservative = (mapped, collapsed)) {i : KirInstruction}
    (hi : i ∈ mapped.instructions) :
    ∃ i₀ ∈ f.instructions, i.kind = i₀.kind ∧ (i₀.memory = none → i.memory = none) ∧
      (i₀.kind.mayWrite summaries → i₀.memory.any (·.output.isSome) →
        i.memory.any (·.output.isSome)) := by
  cases summaries with
  | none =>
      obtain ⟨rfl, _⟩ := Prod.mk.inj hmap
      exact ⟨i, hi, rfl, id, fun _ h ↦ h⟩
  | some summaries =>
      obtain ⟨rfl, _⟩ := Prod.mk.inj hmap
      rw [mapInstructions_instructions, List.mem_map] at hi
      obtain ⟨i₀, hi₀, rfl⟩ := hi
      refine ⟨i₀, hi₀, mapCallMemory_kind summaries i₀, ?_, ?_⟩
      · intro hnone
        unfold KirInstruction.mapCallMemory
        split
        · unfold KirInstruction.withCallMemory
          split <;> simp [hnone]
        · exact hnone
      · intro hwrite hany
        unfold KirInstruction.mapCallMemory
        split
        case h_2 => exact hany
        case h_1 functionName args hkind =>
        have hkeep : ∀ region : MemoryRegionId, (i₀.memory.map fun m ↦
            ({ m with region := region } : KirMemoryAccess)).any (·.output.isSome) = true := by
          intro region
          rwa [Option.any_map]
        cases hcall : callMemory oracle summaries functionName args with
        | all => exact hkeep conservative
        | region region => exact hkeep region
        | nothing =>
            unfold callMemory at hcall
            split at hcall
            case h_1 => cases hcall
            case h_2 summary hsummary =>
            have hempty := mapCallAccesses_nothing hcall
            simp [KirInstructionKind.mayWrite, hkind, hsummary, hempty] at hwrite

theorem mapCalls_withoutMemory {mapped : KirFunction} {collapsed : Bool}
    (hmap : mapCalls f oracle summaries conservative = (mapped, collapsed)) :
    mapped.withoutMemory = f.withoutMemory ∧ mapped.regions = f.regions := by
  cases summaries with
  | none =>
      obtain ⟨rfl, _⟩ := Prod.mk.inj hmap
      exact ⟨rfl, rfl⟩
  | some summaries =>
      obtain ⟨rfl, _⟩ := Prod.mk.inj hmap
      refine ⟨?_, rfl⟩
      have hinstruction : ∀ i : KirInstruction,
          (i.mapCallMemory oracle summaries conservative).withoutMemory = i.withoutMemory := by
        intro i
        unfold KirInstruction.mapCallMemory
        split
        · unfold KirInstruction.withCallMemory
          split <;> rfl
        · rfl
      simp only [KirFunction.withoutMemory, KirFunction.mapInstructions, List.map_map]
      congr 1
      refine List.map_congr_left fun b _ ↦ ?_
      simp only [Function.comp_apply, KirBlock.withoutMemory, List.map_map]
      congr 1
      exact List.map_congr_left fun i _ ↦ hinstruction i

end Mapped

/-! ## One function -/

section Function

variable {f g : KirFunction} {next next' : Nat} {report : MemorySsaFunctionReport}

theorem functionPartitions_nodup (f : KirFunction) (map : PartitionMap)
    (conservative : MemoryRegionId) : (functionPartitions f map conservative).Nodup := by
  unfold functionPartitions
  simp only
  split
  · exact List.nodup_singleton _
  · exact Lib.sortedSet_nodup _

/-- The stages of a successful refinement of one function. -/
theorem refineFunction_stages (h : refineFunction oracle summaries f next = .ok (g, report, next'))
    (hids : (f.blocks.map (·.id)).Nodup) :
    ∃ conservative ∈ f.regions, ∃ mapped collapsed,
      mapCalls f oracle summaries conservative.id = (mapped, collapsed) ∧
      let map := partitionRegions mapped oracle conservative.id collapsed
      (∃ partitions exit, MemoryThreaded g partitions exit) ∧
      g.memoryVersions.Perm (List.range' next (next' - next)) ∧ next ≤ next' ∧
      List.Forall₂ (RebuiltBlock map conservative.id) mapped.blocks g.blocks ∧
      g.regions = f.regions.map (·.assignPartition map oracle conservative.id) ∧
      g.withoutMemory = f.withoutMemory := by
  unfold refineFunction at h
  split at h
  case h_1 => cases h
  case h_2 conservative hfind =>
  generalize hmap : mapCalls f oracle summaries conservative.id = calls at h
  obtain ⟨mapped, collapsed⟩ := calls
  obtain ⟨⟨rebuilt, next₁⟩, hrebuild, h⟩ := Lib.bind_eq_ok.mp h
  cases Lib.pure_eq_ok.mp h
  refine ⟨conservative, List.mem_of_find?_eq_some hfind, mapped, collapsed, hmap, ?_⟩
  obtain ⟨hcode, hregions⟩ := mapCalls_withoutMemory hmap
  have hblocks : mapped.blocks.map (·.id) = f.blocks.map (·.id) := by
    rw [← KirFunction.withoutMemory_blockIds, hcode, KirFunction.withoutMemory_blockIds]
  obtain ⟨hthreaded, hperm, hle, hall, hg⟩ := rebuild_threaded hrebuild (hblocks ▸ hids)
    (functionPartitions_nodup _ _ _)
  refine ⟨⟨_, hthreaded⟩, hperm, hle, hall, ?_, ?_⟩
  · rw [hg, hregions]
  · rw [← hcode, hg]
    have hcodes := Lib.map_eq_of_forall₂ hall fun _ _ hb ↦ hb.code
    simp only [KirFunction.withoutMemory, List.map_map, hcodes]
    rfl

theorem withoutMemory_edges {b b' : KirBlock} (h : b'.withoutMemory = b.withoutMemory) :
    b'.terminator.edges.map (·.target) = b.terminator.edges.map (·.target) := by
  have hterminator : b'.terminator.withoutMemory = b.terminator.withoutMemory :=
    congrArg KirBlock.terminator h
  have hedges : ∀ t : KirTerminator,
      t.withoutMemory.edges.map (·.target) = t.edges.map (·.target) := by
    intro t
    cases t <;> rfl
  rw [← hedges, hterminator, hedges]

/-- Refinement adds no edge to the entry block. -/
theorem withoutMemory_entry (hcode : g.withoutMemory = f.withoutMemory)
    (hentry : ∀ b ∈ f.blocks, ∀ edge ∈ b.terminator.edges,
      f.blocks.head?.map (·.id) ≠ some edge.target) :
    ∀ b ∈ g.blocks, ∀ edge ∈ b.terminator.edges,
      g.blocks.head?.map (·.id) ≠ some edge.target := by
  have hblocks : g.blocks.map (·.withoutMemory) = f.blocks.map (·.withoutMemory) :=
    congrArg KirFunction.blocks hcode
  have hhead : g.blocks.head?.map (·.id) = f.blocks.head?.map (·.id) := by
    have hids : ∀ b : Option KirBlock, (b.map (·.withoutMemory)).map (·.id) = b.map (·.id) := by
      intro b
      cases b <;> rfl
    rw [← hids, ← hids f.blocks.head?, ← List.head?_map, hblocks, ← List.head?_map (l := f.blocks)]
  intro b hb edge hedge
  have hmem : b.withoutMemory ∈ f.blocks.map (·.withoutMemory) :=
    hblocks ▸ List.mem_map_of_mem hb
  obtain ⟨b₀, hb₀, heq⟩ := List.mem_map.mp hmem
  have htargets : edge.target ∈ b₀.terminator.edges.map (·.target) := by
    rw [← withoutMemory_edges heq.symm]
    exact List.mem_map_of_mem hedge
  obtain ⟨edge₀, hedge₀, htarget⟩ := List.mem_map.mp htargets
  rw [hhead, ← htarget]
  exact hentry b₀ hb₀ edge₀ hedge₀

/-- Every instruction of the rebuilt blocks is a renamed one. -/
theorem rebuilt_instruction {map : PartitionMap} {conservative : MemoryRegionId}
    (hall : List.Forall₂ (RebuiltBlock map conservative) f.blocks g.blocks) {i : KirInstruction}
    (hi : i ∈ g.instructions) : ∃ i₀ ∈ f.instructions, Renamed map conservative i₀ i := by
  obtain ⟨b, hb, hi⟩ := KirFunction.mem_instructions.mp hi
  obtain ⟨b₀, hb₀, hrebuilt⟩ := Lib.forall₂_mem_right hall hb
  obtain ⟨i₀, hi₀, hrenamed⟩ := Lib.forall₂_mem_right hrebuilt.instructions hi
  exact ⟨i₀, KirFunction.mem_instructions.mpr ⟨b₀, hb₀, hi₀⟩, hrenamed⟩

theorem Renamed.kind {map : PartitionMap} {conservative : MemoryRegionId} {i i' : KirInstruction}
    (h : Renamed map conservative i i') : i'.kind = i.kind := congrArg (·.kind) h.code

/-- The record of a renamed instruction names the partition of its region. -/
theorem Renamed.region {map : PartitionMap} {conservative : MemoryRegionId}
    {i i' : KirInstruction} (h : Renamed map conservative i i') {memory' : KirMemoryAccess}
    (hmemory' : i'.memory = some memory') :
    ∃ memory, i.memory = some memory ∧
      memory'.region = map.partition conservative (i.sourceRegion memory) ∧
      memory'.output.isSome = memory.output.isSome := by
  have hrecord := h.record
  rw [hmemory', Option.map_some] at hrecord
  obtain ⟨memory, hmemory, heq⟩ := Option.map_eq_some_iff.mp hrecord.symm
  exact ⟨memory, hmemory, (congrArg Prod.fst heq).symm, (congrArg Prod.snd heq).symm⟩

/-- Recorded accesses that may meet name one partition. -/
theorem refined_partition (hsound : ∀ l r, oracle.noAlias l r → Disjoint (bytes l) (bytes r))
    {conservative : MemoryRegionId} {mapped : KirFunction} {collapsed : Bool}
    (hmap : mapCalls f oracle summaries conservative = (mapped, collapsed))
    {i j i' j' : KirInstruction} (hi : i ∈ mapped.instructions) (hj : j ∈ mapped.instructions)
    (hri : Renamed (partitionRegions mapped oracle conservative collapsed) conservative i i')
    (hrj : Renamed (partitionRegions mapped oracle conservative collapsed) conservative j j')
    (hai : i.kind.isScalarAccess) (haj : j.kind.isScalarAccess) {mi mj : KirMemoryAccess}
    (hmi : i'.memory = some mi) (hmj : j'.memory = some mj)
    (hmeet : (j.kind.touches oracle bytes summaries ∩
      i.kind.touches oracle bytes summaries).Nonempty) : mj.region = mi.region := by
  obtain ⟨ni, hni, hregioni, _⟩ := hri.region hmi
  obtain ⟨nj, hnj, hregionj, _⟩ := hrj.region hmj
  rw [hregioni, hregionj]
  cases collapsed with
  | true =>
      have hconstant : ∀ r, (partitionRegions mapped oracle conservative true).partition
          conservative r = conservative := by
        intro r
        simp only [PartitionMap.partition, partitionRegions, if_true]
        split <;> rfl
      rw [hconstant, hconstant]
  | false =>
      obtain ⟨hregionI, htouchI⟩ := mapCalls_touches bytes hmap hi hai hni
      obtain ⟨hregionJ, htouchJ⟩ := mapCalls_touches bytes hmap hj haj hnj
      refine planPartitions_eq hsound ?_ ?_ (hmeet.mono (Set.inter_subset_inter htouchJ htouchI))
      · exact Lib.mem_sortedSet.mpr (List.mem_filterMap.mpr ⟨j, hj, hregionJ⟩)
      · exact Lib.mem_sortedSet.mpr (List.mem_filterMap.mpr ⟨i, hi, hregionI⟩)

theorem isScalarAccess_of_mayWrite {kind : KirInstructionKind}
    (hwrite : kind.mayWrite summaries) (hscalar : kind.isVectorAccess = false) :
    kind.isScalarAccess := by
  cases kind <;> simp_all [KirInstructionKind.mayWrite, KirInstructionKind.isVectorAccess,
    KirInstructionKind.isScalarAccess]

/-- A refined function keeps a faithful history. -/
theorem refineFunction_history (hrefinable : f.Refinable summaries)
    (hids : (f.blocks.map (·.id)).Nodup)
    (h : refineFunction oracle summaries f next = .ok (g, report, next'))
    (hsound : ∀ l r, oracle.noAlias l r → Disjoint (bytes l) (bytes r)) :
    FaithfulHistory oracle bytes summaries g := by
  obtain ⟨conservative, _, mapped, collapsed, hmap, ⟨partitions, exit, hthreaded⟩, _, _, hall, _,
    hcode⟩ := refineFunction_stages h hids
  intro t past frame memory hact i rest hrest haccess access hmemory
  obtain ⟨current, hchained, htracks⟩ :=
    hthreaded.tracks (withoutMemory_entry hcode hrefinable.entry) hact
  have hinput : current access.region = some access.input := by
    rw [hrest] at hchained
    simp only [Chained, hmemory] at hchained
    exact hchained.1
  have hwritten := htracks _ _ hinput
  refine ⟨hwritten, fun j env older hsuffix hwrite hmeet ↦ ?_⟩
  have hi : i ∈ g.instructions :=
    KirFunction.mem_instructions.mpr ⟨_, hact.block_mem, hact.head_mem_instructions hrest⟩
  have hj : j ∈ g.instructions := hact.execute_mem hsuffix
  obtain ⟨i₁, hi₁, hrenamedI⟩ := rebuilt_instruction hall hi
  obtain ⟨j₁, hj₁, hrenamedJ⟩ := rebuilt_instruction hall hj
  obtain ⟨j₀, hj₀, hkind, _, hkeep⟩ := mapCalls_instruction hmap hj₁
  have hkindJ : j.kind = j₀.kind := hrenamedJ.kind.trans hkind
  have hscalarJ : j₁.kind.isScalarAccess :=
    isScalarAccess_of_mayWrite (hrenamedJ.kind ▸ hwrite) (hkind ▸ hrefinable.scalar j₀ hj₀)
  have hrecorded := hkeep (hkindJ ▸ hwrite) (hrefinable.recorded j₀ hj₀ (hkindJ ▸ hwrite))
  obtain ⟨m₁, hm₁, houtput₁⟩ := (Option.any_eq_true _ _).mp hrecorded
  have hsome : j.memory.isSome := by
    have hrecord := congrArg Option.isSome hrenamedJ.record
    simpa [hm₁] using hrecord
  obtain ⟨mj, hmj⟩ := Option.isSome_iff_exists.mp hsome
  have hsame : mj.region = access.region :=
    refined_partition hsound hmap hi₁ hj₁ hrenamedI hrenamedJ (hrenamedI.kind ▸ haccess) hscalarJ
      hmemory hmj (hrenamedI.kind ▸ hrenamedJ.kind ▸ hmeet)
  have hwrites : j.WritesTo access.region := by
    obtain ⟨n, hn, _, houtput⟩ := hrenamedJ.region hmj
    cases hm₁.symm.trans hn
    exact ⟨mj, hmj, hsame, houtput.trans houtput₁⟩
  exact ⟨hwrites, hwritten ▸ suffix_lastWrite hsuffix hwrites⟩

/-- What the memory checks demand of a function by itself. -/
structure KirFunction.MemoryChecked (f : KirFunction) (dominators : Dominators) : Prop where
  regions : regionErrors f = []
  blocks : ∀ b ∈ f.blocks, blockMemoryErrors f dominators b = []

/-- Every region of a refined function names a partition of the function. -/
theorem assignPartition_mem {mapped : KirFunction} {collapsed : Bool}
    {conservative : KirMemoryRegion} (hconservative : conservative ∈ f.regions)
    (hregions : mapped.regions = f.regions) {region : KirMemoryRegion}
    (hregion : region ∈ f.regions) :
    (region.assignPartition (partitionRegions mapped oracle conservative.id collapsed) oracle
      conservative.id).partition ∈ f.regions.map (·.id) := by
  have hown : region.id ∈ f.regions.map (·.id) := List.mem_map_of_mem hregion
  have hcons : conservative.id ∈ f.regions.map (·.id) := List.mem_map_of_mem hconservative
  have hmap : ∃ p ∈ f.regions.map (·.id),
      partitionRegions mapped oracle conservative.id collapsed region.id = some p := by
    unfold partitionRegions
    split
    · exact ⟨_, hcons, by simp only [hregions, hown, if_true]⟩
    · unfold planPartitions
      simp only [hregions, hown, if_true]
      split
      · split
        · exact ⟨_, hown, rfl⟩
        · exact ⟨_, hcons, rfl⟩
      · exact ⟨_, hcons, rfl⟩
  obtain ⟨p, hp, hsome⟩ := hmap
  simpa [KirMemoryRegion.assignPartition, hsome] using hp

/-- A refined function passes the memory checks again. -/
theorem refineFunction_checked (hrefinable : f.Refinable summaries)
    (hids : (f.blocks.map (·.id)).Nodup)
    (h : refineFunction oracle summaries f next = .ok (g, report, next'))
    {dominators dominators' : Dominators} (hchecked : f.MemoryChecked dominators) :
    g.MemoryChecked dominators' := by
  obtain ⟨conservative, hconservative, mapped, collapsed, hmap,
    ⟨partitions, exit, hthreaded⟩, _, _, hall, hregions, hcode⟩ := refineFunction_stages h hids
  have hmappedRegions := (mapCalls_withoutMemory hmap).2
  constructor
  · have hids' : g.regions.map (·.id) = f.regions.map (·.id) := by
      rw [hregions, List.map_map]
      rfl
    have hparents := hchecked.regions
    simp only [regionErrors, List.flatMap_eq_nil_iff, List.append_eq_nil_iff] at hparents ⊢
    intro region hregion
    rw [hregions] at hregion
    obtain ⟨region₀, hregion₀, rfl⟩ := List.mem_map.mp hregion
    rw [hids']
    exact ⟨if_pos (assignPartition_mem hconservative hmappedRegions hregion₀),
      (hparents region₀ hregion₀).2⟩
  · intro b hb
    refine hthreaded.blockErrors dominators' hb
      (withoutMemory_entry hcode hrefinable.entry b hb) fun i hi ↦ ?_
    obtain ⟨i₁, hi₁, hrenamed⟩ :=
      rebuilt_instruction hall (KirFunction.mem_instructions.mpr ⟨b, hb, hi⟩)
    obtain ⟨i₀, hi₀, hkind, hnone, _⟩ := mapCalls_instruction hmap hi₁
    have hscalar := hrefinable.scalar i₀ hi₀
    rw [← hkind, ← hrenamed.kind] at hscalar
    obtain ⟨b₀, hb₀, hib₀⟩ := KirFunction.mem_instructions.mp hi₀
    have herrors : i₀.recordErrors f = [] := by
      obtain ⟨k, hk⟩ := List.mem_iff_getElem?.mp hib₀
      have hblock := hchecked.blocks b₀ hb₀
      simp only [blockMemoryErrors, List.append_eq_nil_iff, List.flatMap_eq_nil_iff] at hblock
      have hinstruction := hblock.1.1 (i₀, k) (List.mk_mem_zipIdx_iff_getElem?.mpr hk)
      simp only [instructionMemoryErrors, List.append_eq_nil_iff] at hinstruction
      exact hinstruction.1
    cases hkindI : i.kind with
    | versionPredicate predicate =>
        have hkind₀ : i₀.kind = .versionPredicate predicate := by
          rw [← hkind, ← hrenamed.kind, hkindI]
        have hmemory₀ : i₀.memory = none := by
          simpa [KirInstruction.recordErrors, hkind₀] using herrors
        have hmemory : i.memory = none := by
          have hrecord := hrenamed.record
          rw [hnone hmemory₀, Option.map_none, Option.map_eq_none_iff] at hrecord
          exact hrecord
        simp [KirInstruction.recordErrors, hkindI, hmemory]
    | vectorLoad access region =>
        rw [hkindI] at hscalar
        cases hscalar
    | vectorStore access value region =>
        rw [hkindI] at hscalar
        cases hscalar
    | _ => simp [KirInstruction.recordErrors, hkindI]

end Function

/-! ## The module -/

section Module

variable {summaries : Option EffectSummaries} {oracle : KirFunction → Except String AliasOracle}

/-- What refinement does to one function of a module. -/
structure Refined (summaries : Option EffectSummaries)
    (oracle : KirFunction → Except String AliasOracle) (f g : KirFunction) : Prop where
  code : g.withoutMemory = f.withoutMemory
  history : ∃ answers, oracle f = .ok answers ∧ ∀ bytes : MemoryRegionId → Set Int,
    (∀ l r, answers.noAlias l r → Disjoint (bytes l) (bytes r)) →
      FaithfulHistory answers bytes summaries g

theorem refineFunctions_spec {fs gs : List KirFunction} {next next' : Nat}
    {reports : List MemorySsaFunctionReport}
    (h : refineFunctions oracle summaries fs next = .ok (gs, reports, next'))
    (hrefinable : ∀ f ∈ fs, f.Refinable summaries)
    (hids : ∀ f ∈ fs, (f.blocks.map (·.id)).Nodup) (dominators : KirFunction → Dominators)
    (hchecked : ∀ f ∈ fs, f.MemoryChecked (dominators f)) :
    List.Forall₂ (Refined summaries oracle) fs gs ∧
      (∀ g ∈ gs, g.MemoryChecked (dominators g)) ∧
      gs.map (fun g ↦ g.regions.map (·.id)) = fs.map (fun f ↦ f.regions.map (·.id)) ∧
      (gs.flatMap (·.memoryVersions)).Perm (List.range' next (next' - next)) ∧ next ≤ next' := by
  induction fs generalizing gs reports next with
  | nil =>
      cases h
      exact ⟨.nil, by simp, rfl, by simp, le_rfl⟩
  | cons f fs ih =>
      obtain ⟨answers, hanswers, h⟩ := Lib.bind_eq_ok.mp h
      obtain ⟨⟨g, report, next₁⟩, hrefine, h⟩ := Lib.bind_eq_ok.mp h
      obtain ⟨⟨gs', reports', next₂⟩, hrest, h⟩ := Lib.bind_eq_ok.mp h
      cases Lib.pure_eq_ok.mp h
      have hf := hrefinable f List.mem_cons_self
      have hidsF := hids f List.mem_cons_self
      obtain ⟨hall, hcheckedRest, hregionsRest, hpermRest, hleRest⟩ :=
        ih hrest (fun f' hf' ↦ hrefinable f' (List.mem_cons_of_mem _ hf'))
          (fun f' hf' ↦ hids f' (List.mem_cons_of_mem _ hf'))
          (fun f' hf' ↦ hchecked f' (List.mem_cons_of_mem _ hf'))
      obtain ⟨conservative, _, mapped, collapsed, _, _, hperm, hle, _, hregions, hcode⟩ :=
        refineFunction_stages hrefine hidsF
      have hrefined : Refined summaries oracle f g :=
        ⟨hcode, answers, hanswers, fun bytes hsound ↦
          refineFunction_history hf hidsF hrefine hsound⟩
      have hcheckedG : g.MemoryChecked (dominators g) :=
        refineFunction_checked hf hidsF hrefine (hchecked f List.mem_cons_self)
      refine ⟨.cons hrefined hall, ?_, ?_, ?_, hle.trans hleRest⟩
      · intro g' hg'
        rcases List.mem_cons.mp hg' with rfl | hg'
        · exact hcheckedG
        · exact hcheckedRest g' hg'
      · rw [List.map_cons, List.map_cons, hregionsRest, hregions, List.map_map]
        rfl
      · rw [List.flatMap_cons]
        refine (hperm.append hpermRest).trans (List.Perm.of_eq ?_)
        rw [show next' - next = (next₁ - next) + (next' - next₁) by omega,
          ← List.range'_append_1, show next + (next₁ - next) = next₁ by omega]

/-- Refinement of a module that passes the memory checks, with refinable functions, is faithful:
only memory annotations change, the checks pass again, and every version an access names was
written by the last write it may observe. -/
theorem refineMemorySsa_faithful {m m' : KirModule} {reports : List MemorySsaFunctionReport}
    (dominators : KirFunction → Dominators) (hvalid : m.memoryErrors dominators = [])
    (hrefinable : ∀ f ∈ m.functions, f.Refinable summaries)
    (h : refineMemorySsa oracle summaries m = .ok (m', reports)) :
    m'.memoryErrors dominators = [] ∧
      m' = { m with functions := m'.functions } ∧
      List.Forall₂ (Refined summaries oracle) m.functions m'.functions := by
  obtain ⟨⟨functions, reports', next'⟩, hfunctions, h⟩ := Lib.bind_eq_ok.mp h
  cases Lib.pure_eq_ok.mp h
  simp only [KirModule.memoryErrors, List.append_eq_nil_iff, List.flatMap_eq_nil_iff,
    duplicateErrors_eq_nil, List.not_mem_nil, not_false_eq_true, implies_true, and_true]
    at hvalid ⊢
  obtain ⟨⟨⟨hregionIds, hblockIds⟩, _⟩, hcheckedM⟩ := hvalid
  have hids : ∀ f ∈ m.functions, (f.blocks.map (·.id)).Nodup :=
    (List.nodup_flatMap.mp hblockIds).1
  have hchecked : ∀ f ∈ m.functions, f.MemoryChecked (dominators f) :=
    fun f hf ↦ ⟨(hcheckedM f hf).1, (hcheckedM f hf).2⟩
  obtain ⟨hall, hcheckedAll, hregions, hperm, _⟩ :=
    refineFunctions_spec hfunctions hrefinable hids dominators hchecked
  have hblocks : functions.map (fun g ↦ g.blocks.map (·.id)) =
      m.functions.map (fun f ↦ f.blocks.map (·.id)) :=
    Lib.map_eq_of_forall₂ hall fun f g hfg ↦ by
      rw [← KirFunction.withoutMemory_blockIds, hfg.code, KirFunction.withoutMemory_blockIds]
  refine ⟨⟨⟨⟨?_, ?_⟩, ?_⟩, fun g hg ↦ ⟨(hcheckedAll g hg).regions, (hcheckedAll g hg).blocks⟩⟩,
    trivial, hall⟩
  · rwa [List.flatMap_def, hregions, ← List.flatMap_def]
  · rwa [List.flatMap_def, hblocks, ← List.flatMap_def]
  · exact hperm.nodup_iff.mpr List.nodup_range'

end Module




end Partitions

/-! ## Functions inside and outside the domain -/

def pickModule : KirModule := ⟨uncheckedConfig, none, [], [pickKir]⟩

/-- In `pick` the entry dominates the two other blocks. -/
def pickDominators (_ : KirFunction) : Dominators := fun a b ↦ a = 0 || a = b

theorem pick_refined : ∃ m' reports,
    refineMemorySsa (analysisOracle 2 none) none pickModule = .ok (m', reports) ∧
      m'.memoryErrors pickDominators = [] ∧
      m' = { pickModule with functions := m'.functions } ∧
      List.Forall₂ (Refined none (analysisOracle 2 none)) pickModule.functions m'.functions := by
  have hvalid : pickModule.memoryErrors pickDominators = [] := by decide +kernel
  have hrefinable : ∀ f ∈ pickModule.functions, f.Refinable none := by
    intro f hf
    obtain rfl : f = pickKir := List.mem_singleton.mp hf
    exact ⟨by decide +kernel, by decide +kernel, by decide +kernel⟩
  refine ⟨_, _, rfl, ?_⟩
  exact refineMemorySsa_faithful pickDominators hvalid hrefinable rfl

/-- `fn spin() { loop to the entry block }`, as KIR. -/
def spinModule : KirModule :=
  ⟨uncheckedConfig, none, [],
    [⟨0, "spin", true, [], .void, [⟨0, .conservative, none, 0, none⟩], [⟨0, 0⟩], [],
      [⟨0, "bb0", [], [], [], .jump ⟨0, [], []⟩⟩]⟩]⟩

/-- `fn fill(s: slice<i32>)` with a store to `s[0]` and a vector store to `s[0..4]`, as KIR. -/
def fillModule : KirModule :=
  ⟨uncheckedConfig, none, [],
    [⟨0, "fill", true, [⟨0, "s", .slice .i32⟩], .void,
      [⟨0, .conservative, none, 0, none⟩, ⟨1, .parameter 0, none, 0, none⟩], [⟨0, 0⟩], [⟨0, [0]⟩],
      [⟨0, "bb0", [], [],
        [⟨0, [⟨1, .scalar .u32⟩], .constInt "0", none, none⟩,
          ⟨1, [⟨2, .scalar .u32⟩], .constInt "4", none, none⟩,
          ⟨2, [⟨3, .scalar .i32⟩], .constInt "7", none, none⟩,
          ⟨3, [⟨4, .fixedVector .i32 4⟩], .vectorSplat 3 0, none, none⟩,
          ⟨4, [], .store (.sliceIndex 0 1 .i32 1) 3, some ⟨0, 0, some 1⟩,
            some ⟨0, .writeMemory⟩⟩,
          ⟨5, [], .vectorStore ⟨0, 1, 2, .i32, 4, 16, 4, 4⟩ 4 0, some ⟨0, 1, some 2⟩,
            some ⟨1, .writeMemory⟩⟩],
        .return none [(0, 2)] 2⟩]⟩]⟩

/-- An edge to the entry block is given memory arguments that the block has no parameters for; a
vector store is left without a partition. -/
theorem refineMemorySsa_not_faithful :
    (spinModule.memoryErrors (fun _ a b ↦ a = b) = [] ∧
      ∃ m' reports, refineMemorySsa (analysisOracle 2 none) none spinModule = .ok (m', reports) ∧
        m'.memoryErrors (fun _ a b ↦ a = b) ≠ []) ∧
    fillModule.memoryErrors (fun _ a b ↦ a = b) = [] ∧
      refineMemorySsa (analysisOracle 2 none) none fillModule =
        .error "block b0 has no current memory for partition r0" := by
  refine ⟨⟨by decide +kernel, _, _, rfl, by decide +kernel⟩, by decide +kernel, ?_⟩
  rfl

end CalcKernel
