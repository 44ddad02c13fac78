import Mathlib.Data.List.Forall2
import Mathlib.Data.List.Nodup
import Mathlib.Data.List.Perm.Basic
import Mathlib.Data.List.Range
import CalcKernel.Lib.Assoc
import CalcKernel.Optimizer.MemorySsa

/-!
# Threaded memory versions

What the rebuild leaves behind: fresh versions in ascending order, and in every
block a chain that names as input what the instructions before it left.
-/

namespace CalcKernel

/-- Each instruction names the current version of its partition, and may replace it by a fresh
one. -/
def Chained : VersionMap → List KirInstruction → VersionMap → Prop
  | current, [], exit => exit = current
  | current, i :: is, exit =>
      match i.memory with
      | none => Chained current is exit
      | some memory =>
          current memory.region = some memory.input ∧
            match memory.output with
            | none => Chained current is exit
            | some output =>
                (∀ r, current r ≠ some output) ∧
                  Chained (Function.update current memory.region (some output)) is exit

/-- The versions at the head of a block. -/
def KirFunction.headVersions (g : KirFunction) (b : KirBlock) :
    List (MemoryRegionId × MemoryVersionId) :=
  if g.blocks.head?.map (·.id) = some b.id then
    g.initialMemory.map fun memory ↦ (memory.region, memory.version)
  else b.memoryParams.map fun param ↦ (param.region, param.version)

/-- Every partition runs through every block and every edge. -/
structure MemoryThreaded (g : KirFunction) (partitions : List MemoryRegionId)
    (exit : BlockId → VersionMap) : Prop where
  distinct : partitions.Nodup
  blockIds : (g.blocks.map (·.id)).Nodup
  versions : g.memoryVersions.Nodup
  initial : g.initialMemory.map (·.region) = partitions
  entry : ∀ b, g.blocks.head? = some b → b.memoryParams = []
  params : ∀ b ∈ g.blocks.tail, b.memoryParams.map (·.region) = partitions
  chained : ∀ b ∈ g.blocks,
    Chained (fun r ↦ (g.headVersions b).lookup r) b.instructions (exit b.id)
  edges : ∀ b ∈ g.blocks, ∀ edge ∈ b.terminator.edges,
    (∃ target ∈ g.blocks, target.id = edge.target) ∧
      edge.memoryArgs.map some = partitions.map (exit b.id)
  returns : ∀ b ∈ g.blocks, ∀ value memory effectOrder,
    b.terminator = .return value memory effectOrder →
      memory = partitions.filterMap fun r ↦ (exit b.id r).map fun v ↦ (r, v)

/-- An instruction renamed: its record belongs to the partition of its region. -/
structure Renamed (map : PartitionMap) (conservative : MemoryRegionId) (i i' : KirInstruction) :
    Prop where
  code : i'.withoutMemory = i.withoutMemory
  record : i'.memory.map (fun m ↦ (m.region, m.output.isSome)) =
    i.memory.map fun m ↦ (map.partition conservative (i.sourceRegion m), m.output.isSome)

/-! ## The parts of the rebuild -/

theorem allocateMemory_eq_ok {next next' : Nat} {version : MemoryVersionId}
    (h : allocateMemory next = .ok (version, next')) : version = next ∧ next' = next + 1 := by
  unfold allocateMemory at h
  split at h
  · cases h
    exact ⟨rfl, rfl⟩
  · cases h

theorem allocateVersions_spec {partitions : List MemoryRegionId} {next next' : Nat}
    {versions : List (MemoryRegionId × MemoryVersionId)}
    (h : allocateVersions partitions next = .ok (versions, next')) :
    versions.map (·.1) = partitions ∧ versions.map (·.2) = List.range' next partitions.length ∧
      next' = next + partitions.length := by
  induction partitions generalizing next versions with
  | nil =>
      cases h
      exact ⟨rfl, rfl, rfl⟩
  | cons region regions ih =>
      obtain ⟨⟨version, next₁⟩, hversion, h⟩ := Lib.bind_eq_ok.mp h
      obtain ⟨⟨rest, next₂⟩, hrest, h⟩ := Lib.bind_eq_ok.mp h
      cases Lib.pure_eq_ok.mp h
      obtain ⟨rfl, rfl⟩ := allocateMemory_eq_ok hversion
      obtain ⟨hregions, hversions, hnext⟩ := ih hrest
      refine ⟨by simp [hregions], by simp [hversions, List.range'_succ], ?_⟩
      rw [hnext, List.length_cons]
      omega

/-- A block with memory parameters for the given versions. -/
def KirBlock.withMemoryParams (b : KirBlock) (versions : List (MemoryRegionId × MemoryVersionId)) :
    KirBlock :=
  { b with memoryParams := versions.map fun p ↦ ⟨p.2, p.1⟩ }

theorem allocateBlockParams_spec {partitions : List MemoryRegionId} {blocks : List KirBlock}
    {next next' : Nat} {headed : List HeadedBlock}
    (h : allocateBlockParams partitions blocks next = .ok (headed, next')) :
    List.Forall₂ (fun b p ↦ p.1 = b.withMemoryParams p.2 ∧ p.2.map (·.1) = partitions) blocks
        headed ∧
      headed.flatMap (fun p ↦ p.2.map (·.2)) = List.range' next (next' - next) ∧
      next ≤ next' := by
  induction blocks generalizing next headed with
  | nil =>
      cases h
      exact ⟨.nil, by simp, le_rfl⟩
  | cons b bs ih =>
      obtain ⟨⟨versions, next₁⟩, hversions, h⟩ := Lib.bind_eq_ok.mp h
      obtain ⟨⟨rest, next₂⟩, hrest, h⟩ := Lib.bind_eq_ok.mp h
      cases Lib.pure_eq_ok.mp h
      obtain ⟨hregions, hrange, rfl⟩ := allocateVersions_spec hversions
      obtain ⟨hblocks, hranges, hle⟩ := ih hrest
      refine ⟨.cons ⟨rfl, hregions⟩ hblocks, ?_, (Nat.le_add_right _ _).trans hle⟩
      rw [List.flatMap_cons, hrange, hranges, List.range'_append_1]
      congr 1
      omega

theorem renameInstruction_spec {map : PartitionMap} {conservative : MemoryRegionId}
    {block : BlockId} {current exit : VersionMap} {i i' : KirInstruction} {next next' : Nat}
    (h : renameInstruction map conservative block current i next = .ok (i', exit, next'))
    (hbelow : ∀ r v, current r = some v → v < next) :
    Renamed map conservative i i' ∧
      (∀ is last, Chained exit is last → Chained current (i' :: is) last) ∧
      (∀ r v, exit r = some v → v < next') ∧ (∀ r, (exit r).isSome = (current r).isSome) ∧
      (i'.memory.bind (·.output)).toList = List.range' next (next' - next) ∧ next ≤ next' := by
  unfold renameInstruction at h
  split at h
  case h_1 hmemory =>
    cases h
    refine ⟨⟨rfl, by simp [hmemory]⟩, ?_, hbelow, fun _ ↦ rfl, by simp [hmemory], le_rfl⟩
    intro is last hlast
    simpa only [Chained, hmemory] using hlast
  case h_2 memory hmemory =>
  simp only at h
  split at h
  case h_1 => cases h
  case h_2 input hinput =>
  split at h
  case h_1 houtput =>
    cases h
    refine ⟨⟨rfl, by simp [hmemory, houtput]⟩, ?_, hbelow, fun _ ↦ rfl, by simp, le_rfl⟩
    intro is last hlast
    exact ⟨hinput, hlast⟩
  case h_2 old houtput =>
    obtain ⟨⟨output, next₁⟩, hallocate, h⟩ := Lib.bind_eq_ok.mp h
    obtain ⟨rfl, rfl⟩ := allocateMemory_eq_ok hallocate
    cases Lib.pure_eq_ok.mp h
    refine ⟨⟨rfl, by simp [hmemory, houtput]⟩, ?_, ?_, ?_, by simp, Nat.le_succ _⟩
    · intro is last hlast
      refine ⟨hinput, fun r hr ↦ ?_, hlast⟩
      exact absurd (hbelow r _ hr) (Nat.lt_irrefl _)
    · intro r v hv
      rw [Function.update_apply] at hv
      split at hv
      · cases hv
        exact Nat.lt_succ_self _
      · exact (hbelow r v hv).trans (Nat.lt_succ_self _)
    · intro r
      rw [Function.update_apply]
      split
      · rename_i hr
        rw [hr, hinput]
        rfl
      · rfl

theorem renameInstructions_spec {map : PartitionMap} {conservative : MemoryRegionId}
    {block : BlockId} {current exit : VersionMap} {is is' : List KirInstruction}
    {next next' : Nat}
    (h : renameInstructions map conservative block current is next = .ok (is', exit, next'))
    (hbelow : ∀ r v, current r = some v → v < next) :
    List.Forall₂ (Renamed map conservative) is is' ∧ Chained current is' exit ∧
      (∀ r, (exit r).isSome = (current r).isSome) ∧
      is'.filterMap (fun i ↦ i.memory.bind (·.output)) = List.range' next (next' - next) ∧
      next ≤ next' := by
  induction is generalizing current is' next with
  | nil =>
      cases h
      exact ⟨.nil, rfl, fun _ ↦ rfl, by simp, le_rfl⟩
  | cons i is ih =>
      obtain ⟨⟨i₁, current₁, next₁⟩, hi, h⟩ := Lib.bind_eq_ok.mp h
      obtain ⟨⟨is₁, exit₁, next₂⟩, his, h⟩ := Lib.bind_eq_ok.mp h
      cases Lib.pure_eq_ok.mp h
      obtain ⟨hrenamed, hchain, hbelow₁, hkeys, houtput, hle⟩ := renameInstruction_spec hi hbelow
      obtain ⟨hrest, hchained, hkeys', houtputs, hle'⟩ := ih his hbelow₁
      refine ⟨.cons hrenamed hrest, hchain _ _ hchained, fun r ↦ (hkeys' r).trans (hkeys r), ?_,
        hle.trans hle'⟩
      rw [List.filterMap_cons, houtputs]
      cases hmemory : i₁.memory.bind (·.output) with
      | none =>
          have hsame : next₁ = next := by
            have hlen := congrArg List.length houtput
            simp only [hmemory, Option.toList_none, List.length_nil, List.length_range'] at hlen
            omega
          rw [hsame]
      | some output =>
          rw [hmemory, Option.toList_some] at houtput
          have hlen := congrArg List.length houtput
          simp only [List.length_singleton, List.length_range'] at hlen
          have hnext : next₁ = next + 1 := by omega
          subst hnext
          have hout : output = next := by simpa using houtput
          subst hout
          have hcount : next' - output = (next' - (output + 1)) + 1 := by omega
          rw [hcount, List.range'_succ]

/-- A block with its instructions renamed from its entry versions on. -/
structure RenamedBlock (map : PartitionMap) (partitions : List MemoryRegionId)
    (conservative : MemoryRegionId) (entries : BlockEntries) (b : KirBlock)
    (p : KirBlock × VersionMap) : Prop where
  frame : p.1 = { b with
    instructions := p.1.instructions
    terminator := b.terminator.withReturnMemory partitions p.2 }
  instructions : List.Forall₂ (Renamed map conservative) b.instructions p.1.instructions
  chained : Chained (fun r ↦ ((entries.at? b.id).getD []).lookup r) p.1.instructions p.2

theorem renameBlocks_spec {map : PartitionMap} {partitions : List MemoryRegionId}
    {conservative : MemoryRegionId} {entries : BlockEntries} {blocks : List KirBlock}
    {renamed : List (KirBlock × VersionMap)} {next next' : Nat}
    (h : renameBlocks map partitions conservative entries blocks next = .ok (renamed, next'))
    (hbelow : ∀ b ∈ blocks, ∀ p ∈ (entries.at? b.id).getD [], p.2 < next) :
    List.Forall₂ (RenamedBlock map partitions conservative entries) blocks renamed ∧
      renamed.flatMap (fun p ↦ p.1.instructions.filterMap fun i ↦ i.memory.bind (·.output)) =
        List.range' next (next' - next) ∧ next ≤ next' := by
  induction blocks generalizing next renamed with
  | nil =>
      cases h
      exact ⟨.nil, by simp, le_rfl⟩
  | cons b bs ih =>
      obtain ⟨⟨is, exit, next₁⟩, his, h⟩ := Lib.bind_eq_ok.mp h
      obtain ⟨⟨rest, next₂⟩, hrest, h⟩ := Lib.bind_eq_ok.mp h
      cases Lib.pure_eq_ok.mp h
      have hcurrent : ∀ r v, ((entries.at? b.id).getD []).lookup r = some v → v < next :=
        fun r v hv ↦ hbelow b List.mem_cons_self _ (Lib.mem_of_lookup hv)
      obtain ⟨hrenamed, hchained, _, houtputs, hle⟩ := renameInstructions_spec his hcurrent
      obtain ⟨hblocks, hrange, hle'⟩ := ih hrest fun b' hb' p hp ↦
        (hbelow b' (List.mem_cons_of_mem _ hb') p hp).trans_le hle
      refine ⟨.cons ⟨rfl, hrenamed, hchained⟩ hblocks, ?_, hle.trans hle'⟩
      rw [List.flatMap_cons, hrange]
      simp only [houtputs]
      have hstart : next₁ = next + (next₁ - next) := by omega
      have hcount : next' - next = (next₁ - next) + (next' - next₁) := by omega
      rw [hcount, ← List.range'_append_1, ← hstart]

theorem BlockEntries.at?_of_mem {entries : BlockEntries} (h : (entries.map (·.1)).Nodup)
    {block : BlockId} {versions : List (MemoryRegionId × MemoryVersionId)}
    (hmem : (block, versions) ∈ entries) : entries.at? block = some versions :=
  Lib.lookup_of_mem (by simpa using h) (List.mem_reverse.mpr hmem)

theorem exitOf_of_mem {renamed : List (KirBlock × VersionMap)}
    (h : (renamed.map (·.1.id)).Nodup) {p : KirBlock × VersionMap} (hp : p ∈ renamed) :
    exitOf renamed p.1.id = p.2 := by
  have hfind := Lib.find?_of_mem (fun p : KirBlock × VersionMap ↦ p.1.id)
    (l := renamed.reverse) (by simpa using h) (List.mem_reverse.mpr hp)
  simp only [exitOf, hfind, Option.map_some, Option.getD_some]

theorem rewriteEdge_eq_ok {exit : VersionMap} {entries : BlockEntries} {edge edge' : KirEdge}
    (h : rewriteEdge exit entries edge = .ok edge') :
    edge'.withoutMemory = edge.withoutMemory ∧ ∃ target, entries.at? edge.target = some target ∧
      edge'.memoryArgs.map some = target.map fun p ↦ exit p.1 := by
  unfold rewriteEdge at h
  split at h
  case h_1 => cases h
  case h_2 target htarget =>
  obtain ⟨args, hargs, h⟩ := Lib.bind_eq_ok.mp h
  cases Lib.pure_eq_ok.mp h
  refine ⟨rfl, target, htarget, ?_⟩
  refine Lib.map_some_of_forall₂ ((Lib.mapM_eq_ok hargs).imp fun p v hpv ↦ ?_)
  split at hpv
  · rename_i hexit
    cases hpv
    exact hexit
  · cases hpv

/-- A rewritten terminator passes the exit versions along its edges. -/
theorem rewriteTerminator_eq_ok {exit : VersionMap} {entries : BlockEntries}
    {t t' : KirTerminator} (h : rewriteTerminator exit entries t = .ok t') :
    t'.withoutMemory = t.withoutMemory ∧
      (∀ edge ∈ t'.edges, ∃ target, entries.at? edge.target = some target ∧
        edge.memoryArgs.map some = target.map fun p ↦ exit p.1) ∧
      ∀ value memory effectOrder, t' = .return value memory effectOrder → t = t' := by
  have hedge : ∀ {edge edge'}, rewriteEdge exit entries edge = .ok edge' →
      ∃ target, entries.at? edge'.target = some target ∧
        edge'.memoryArgs.map some = target.map fun p ↦ exit p.1 := by
    intro edge edge' hrewrite
    obtain ⟨hcode, target, htarget, hargs⟩ := rewriteEdge_eq_ok hrewrite
    have hsame : edge'.target = edge.target := by
      simpa [KirEdge.withoutMemory] using congrArg KirEdge.target hcode
    exact ⟨target, hsame ▸ htarget, hargs⟩
  cases t with
  | «return» value memory effectOrder =>
      cases h
      exact ⟨rfl, by simp [KirTerminator.edges], fun _ _ _ _ ↦ rfl⟩
  | jump edge =>
      obtain ⟨edge', hrewrite, h⟩ := Lib.bind_eq_ok.mp h
      cases Lib.pure_eq_ok.mp h
      refine ⟨?_, ?_, fun _ _ _ heq ↦ KirTerminator.noConfusion heq⟩
      · simp only [KirTerminator.withoutMemory, (rewriteEdge_eq_ok hrewrite).1]
      · simpa [KirTerminator.edges] using hedge hrewrite
  | branch condition thenEdge elseEdge =>
      obtain ⟨then', hthen, h⟩ := Lib.bind_eq_ok.mp h
      obtain ⟨else', helse, h⟩ := Lib.bind_eq_ok.mp h
      cases Lib.pure_eq_ok.mp h
      refine ⟨?_, ?_, fun _ _ _ heq ↦ KirTerminator.noConfusion heq⟩
      · simp only [KirTerminator.withoutMemory, (rewriteEdge_eq_ok hthen).1,
          (rewriteEdge_eq_ok helse).1]
      · simp only [KirTerminator.edges, List.mem_cons, List.not_mem_nil, or_false,
          forall_eq_or_imp, forall_eq]
        exact ⟨hedge hthen, hedge helse⟩

/-! ## The rebuilt function -/

/-- A block with its entry versions, and with all but its memory parameters as in `b`. -/
structure Headed (partitions : List MemoryRegionId) (b : KirBlock) (p : HeadedBlock) : Prop where
  frame : p.1 = { b with memoryParams := p.1.memoryParams }
  regions : p.2.map (·.1) = partitions

/-- A block of the rebuilt function, made from a headed block. -/
structure Finished (map : PartitionMap) (partitions : List MemoryRegionId)
    (conservative : MemoryRegionId) (entries : BlockEntries) (exit : BlockId → VersionMap)
    (p : HeadedBlock) (b : KirBlock) : Prop where
  frame : b = { p.1 with instructions := b.instructions, terminator := b.terminator }
  instructions : List.Forall₂ (Renamed map conservative) p.1.instructions b.instructions
  chained : Chained (fun r ↦ p.2.lookup r) b.instructions (exit b.id)
  terminator : rewriteTerminator (exit b.id) entries
    (p.1.terminator.withReturnMemory partitions (exit b.id)) = .ok b.terminator

/-- What the rebuild does to one block. -/
structure RebuiltBlock (map : PartitionMap) (conservative : MemoryRegionId) (b b' : KirBlock) :
    Prop where
  code : b'.withoutMemory = b.withoutMemory
  instructions : List.Forall₂ (Renamed map conservative) b.instructions b'.instructions

theorem withReturnMemory_withoutMemory (partitions : List MemoryRegionId) (exit : VersionMap)
    (t : KirTerminator) :
    (t.withReturnMemory partitions exit).withoutMemory = t.withoutMemory := by
  cases t <;> rfl

theorem withReturnMemory_return {partitions : List MemoryRegionId} {exit : VersionMap}
    {t : KirTerminator} {value : Option ValueId}
    {memory : List (MemoryRegionId × MemoryVersionId)} {effectOrder : Nat}
    (h : t.withReturnMemory partitions exit = .return value memory effectOrder) :
    memory = partitions.filterMap fun r ↦ (exit r).map fun v ↦ (r, v) := by
  cases t <;> cases h
  rfl

theorem Renamed.map_code {map : PartitionMap} {conservative : MemoryRegionId}
    {is is' : List KirInstruction} (h : List.Forall₂ (Renamed map conservative) is is') :
    is'.map (·.withoutMemory) = is.map (·.withoutMemory) :=
  Lib.map_eq_of_forall₂ h fun _ _ hi ↦ hi.code

theorem Finished.rebuilt {map : PartitionMap} {partitions : List MemoryRegionId}
    {conservative : MemoryRegionId} {entries : BlockEntries} {exit : BlockId → VersionMap}
    {b b' : KirBlock} {p : HeadedBlock} (hp : Headed partitions b p)
    (h : Finished map partitions conservative entries exit p b') :
    RebuiltBlock map conservative b b' where
  code := by
    have hcode := (rewriteTerminator_eq_ok h.terminator).1
    rw [withReturnMemory_withoutMemory] at hcode
    have hinstructions := Renamed.map_code h.instructions
    rw [h.frame]
    simp only [KirBlock.withoutMemory, hinstructions, hcode]
    rw [hp.frame]
  instructions := by
    have hsame : p.1.instructions = b.instructions := by rw [hp.frame]
    exact hsame ▸ h.instructions

section Rebuild

variable {f g : KirFunction} {map : PartitionMap} {partitions : List MemoryRegionId}
variable {conservative : MemoryRegionId} {next next' : Nat}

theorem headBlocks_headed {initial : List (MemoryRegionId × MemoryVersionId)}
    (hinitial : initial.map (·.1) = partitions) {params : List HeadedBlock}
    (hparams : List.Forall₂ (fun b p ↦ p.1 = b.withMemoryParams p.2 ∧ p.2.map (·.1) = partitions)
      f.blocks.tail params) :
    List.Forall₂ (Headed partitions) f.blocks (headBlocks f initial params) := by
  have htail : List.Forall₂ (Headed partitions) f.blocks.tail params :=
    hparams.imp fun b p hp ↦ ⟨hp.1 ▸ rfl, hp.2⟩
  cases hf : f.blocks with
  | nil =>
      rw [hf] at htail
      simpa [headBlocks, hf] using htail
  | cons b bs =>
      rw [hf] at htail
      simp only [headBlocks, hf, List.head?_cons, Option.map_some, Option.toList_some,
        List.singleton_append]
      exact .cons ⟨rfl, hinitial⟩ htail

/-- The entry versions were allocated before anything is renamed. -/
theorem headBlocks_below {initial : List (MemoryRegionId × MemoryVersionId)}
    {params : List HeadedBlock} {next₁ next₂ : Nat}
    (hinitial : allocateVersions partitions next = .ok (initial, next₁))
    (hparams : allocateBlockParams partitions f.blocks.tail next₁ = .ok (params, next₂))
    {p : HeadedBlock} (hp : p ∈ headBlocks f initial params)
    {q : MemoryRegionId × MemoryVersionId} (hq : q ∈ p.2) : q.2 < next₂ := by
  obtain ⟨_, hversions, rfl⟩ := allocateVersions_spec hinitial
  obtain ⟨_, hparamVersions, hle⟩ := allocateBlockParams_spec hparams
  rcases List.mem_append.mp hp with hentry | hp
  · obtain ⟨b, _, rfl⟩ := Option.map_eq_some_iff.mp (Option.mem_toList.mp hentry)
    have hmem := List.mem_map_of_mem (f := Prod.snd) hq
    rw [hversions, List.mem_range'_1] at hmem
    exact hmem.2.trans_le hle
  · have hmem : q.2 ∈ params.flatMap fun p ↦ p.2.map (·.2) :=
      List.mem_flatMap.mpr ⟨p, hp, List.mem_map_of_mem hq⟩
    rw [hparamVersions, List.mem_range'_1] at hmem
    exact Nat.lt_of_lt_of_eq hmem.2 (Nat.add_sub_cancel' hle)

/-- The stages of a successful rebuild. -/
theorem rebuild_stages
    (h : rebuildFunctionMemorySsa f map partitions conservative next = .ok (g, next'))
    (hids : (f.blocks.map (·.id)).Nodup) :
    ∃ (initial : List (MemoryRegionId × MemoryVersionId)) (params : List HeadedBlock)
      (next₁ next₂ : Nat) (exit : BlockId → VersionMap),
      allocateVersions partitions next = .ok (initial, next₁) ∧
      allocateBlockParams partitions f.blocks.tail next₁ = .ok (params, next₂) ∧
      List.Forall₂ (Finished map partitions conservative
        (blockEntries (headBlocks f initial params)) exit) (headBlocks f initial params) g.blocks ∧
      g.blocks.flatMap (fun b ↦ b.instructions.filterMap fun i ↦ i.memory.bind (·.output)) =
        List.range' next₂ (next' - next₂) ∧ next₂ ≤ next' ∧
      g = { f with
        initialMemory := initial.map fun p ↦ ⟨p.1, p.2⟩
        blocks := g.blocks } := by
  obtain ⟨⟨initial, next₁⟩, hinitial, h⟩ := Lib.bind_eq_ok.mp h
  obtain ⟨⟨params, next₂⟩, hparams, h⟩ := Lib.bind_eq_ok.mp h
  obtain ⟨⟨renamed, next₃⟩, hrenamed, h⟩ := Lib.bind_eq_ok.mp h
  obtain ⟨blocks, hblocks, h⟩ := Lib.bind_eq_ok.mp h
  cases Lib.pure_eq_ok.mp h
  obtain ⟨hregions, hversions, hnext₁⟩ := allocateVersions_spec hinitial
  obtain ⟨hall, hparamVersions, hle⟩ := allocateBlockParams_spec hparams
  refine ⟨initial, params, next₁, next₂, exitOf renamed, hinitial, hparams, ?_⟩
  have hheaded := headBlocks_headed hregions hall
  have hheadedIds : (headBlocks f initial params).map (·.1.id) = f.blocks.map (·.id) :=
    Lib.map_eq_of_forall₂ hheaded fun b p hp ↦ by rw [hp.frame]
  have hentryIds : ((blockEntries (headBlocks f initial params)).map (·.1)).Nodup := by
    rw [blockEntries, List.map_map]
    exact hheadedIds ▸ hids
  have hbelow : ∀ b ∈ (headBlocks f initial params).map (·.1),
      ∀ p ∈ ((blockEntries (headBlocks f initial params)).at? b.id).getD [], p.2 < next₂ := by
    intro b _ p hp
    cases hat : (blockEntries (headBlocks f initial params)).at? b.id with
    | none => simp [hat] at hp
    | some versions =>
        rw [hat, Option.getD_some] at hp
        have hmem := List.mem_reverse.mp (Lib.mem_of_lookup hat)
        obtain ⟨q, hq, heq⟩ := List.mem_map.mp hmem
        rw [← (Prod.mk.inj heq).2] at hp
        exact headBlocks_below hinitial hparams hq hp
  obtain ⟨hrenamedBlocks, houtputs, hle'⟩ := renameBlocks_spec hrenamed hbelow
  rw [List.forall₂_map_left_iff] at hrenamedBlocks
  have hrenamedIds : renamed.map (·.1.id) = f.blocks.map (·.id) := by
    rw [← hheadedIds]
    exact Lib.map_eq_of_forall₂ hrenamedBlocks fun b p hp ↦ by rw [hp.frame]
  have hexit : ∀ p ∈ renamed, exitOf renamed p.1.id = p.2 :=
    fun p hp ↦ exitOf_of_mem (hrenamedIds ▸ hids) hp
  have hrewritten := Lib.mapM_eq_ok hblocks
  have hfinished : List.Forall₂ (Finished map partitions conservative
      (blockEntries (headBlocks f initial params)) (exitOf renamed)) (headBlocks f initial params)
      blocks := by
    refine Lib.forall₂_trans ?_ (Lib.forall₂_mem hrenamedBlocks) (Lib.forall₂_mem hrewritten)
    rintro p ⟨b, exit⟩ b' ⟨hp, hb, hframe, hinstructions, hchained⟩ ⟨_, _, hb'⟩
    obtain ⟨t, ht, hb'⟩ := Lib.bind_eq_ok.mp hb'
    cases Lib.pure_eq_ok.mp hb'
    simp only at hframe hinstructions hchained
    have hsame : exitOf renamed b.id = exit := hexit _ hb
    have hat : (blockEntries (headBlocks f initial params)).at? p.1.id = some p.2 :=
      BlockEntries.at?_of_mem hentryIds (List.mem_map.mpr ⟨p, hp, rfl⟩)
    have hterminator : b.terminator = p.1.terminator.withReturnMemory partitions exit := by
      rw [hframe]
    rw [hat] at hchained
    refine ⟨?_, hinstructions, ?_, ?_⟩
    · rw [hframe]
    · simpa only [hsame, Option.getD_some] using hchained
    · simpa only [hsame, ← hterminator] using ht
  refine ⟨hfinished, ?_, hle', rfl⟩
  rw [← houtputs, List.flatMap_def, List.flatMap_def]
  congr 1
  refine Lib.map_eq_of_forall₂ hrewritten fun p b hb ↦ ?_
  obtain ⟨t, _, hb⟩ := Lib.bind_eq_ok.mp hb
  cases Lib.pure_eq_ok.mp hb
  rfl

theorem memoryVersions_perm (g : KirFunction) :
    g.memoryVersions.Perm (g.initialMemory.map (·.version) ++
      (g.blocks.flatMap (fun b ↦ b.memoryParams.map (·.version)) ++
        g.blocks.flatMap fun b ↦ b.instructions.filterMap fun i ↦ i.memory.bind (·.output))) :=
  List.Perm.append_left _ (List.flatMap_append_perm g.blocks _ _).symm

/-- The blocks of the rebuilt function: the entry has no memory parameters, the others have the
allocated ones. -/
theorem finished_params {entries : BlockEntries} {exit : BlockId → VersionMap}
    {initial : List (MemoryRegionId × MemoryVersionId)} {params : List HeadedBlock}
    (hall : List.Forall₂ (fun b p ↦ p.1 = b.withMemoryParams p.2 ∧ p.2.map (·.1) = partitions)
      f.blocks.tail params)
    (hfinished : List.Forall₂ (Finished map partitions conservative entries exit)
      (headBlocks f initial params) g.blocks) :
    (∀ b, g.blocks.head? = some b → b.memoryParams = []) ∧
      List.Forall₂ (fun p b ↦ b.memoryParams = p.2.map fun q ↦ ⟨q.2, q.1⟩) params
        g.blocks.tail := by
  have htail : ∀ {blocks : List KirBlock},
      List.Forall₂ (Finished map partitions conservative entries exit) params blocks →
        List.Forall₂ (fun (p : HeadedBlock) b ↦ b.memoryParams = p.2.map fun q ↦ ⟨q.2, q.1⟩)
          params blocks := by
    intro blocks h
    refine (Lib.forall₂_mem h).imp ?_
    rintro p b ⟨hp, _, hfinished⟩
    obtain ⟨_, _, hframe, _⟩ := Lib.forall₂_mem_right hall hp
    rw [hfinished.frame, hframe]
    rfl
  cases hf : f.blocks with
  | nil =>
      rw [hf] at hall
      cases hall
      simp only [headBlocks, hf, List.head?_nil, Option.map_none, Option.toList_none,
        List.nil_append] at hfinished
      generalize g.blocks = blocks at hfinished ⊢
      cases hfinished
      exact ⟨by simp, .nil⟩
  | cons b₀ bs =>
      simp only [headBlocks, hf, List.head?_cons, Option.map_some, Option.toList_some,
        List.singleton_append] at hfinished
      generalize g.blocks = blocks at hfinished ⊢
      cases hfinished with
      | cons hhead hrest =>
          refine ⟨fun b hb ↦ ?_, htail hrest⟩
          cases hb
          rw [hhead.frame]

/-- The head versions of every block are those it was renamed from. -/
theorem finished_headVersions {entries : BlockEntries} {exit : BlockId → VersionMap}
    {initial : List (MemoryRegionId × MemoryVersionId)} {params : List HeadedBlock}
    (hall : List.Forall₂ (fun b p ↦ p.1 = b.withMemoryParams p.2 ∧ p.2.map (·.1) = partitions)
      f.blocks.tail params)
    (hfinished : List.Forall₂ (Finished map partitions conservative entries exit)
      (headBlocks f initial params) g.blocks)
    (hinitial : g.initialMemory = initial.map fun p ↦ ⟨p.1, p.2⟩)
    (hids : (g.blocks.map (·.id)).Nodup) :
    List.Forall₂ (fun p b ↦ g.headVersions b = p.2) (headBlocks f initial params) g.blocks := by
  have hparams := (finished_params hall hfinished).2
  have hswap : ∀ l : List (MemoryRegionId × MemoryVersionId),
      (l.map fun q ↦ ((q.1, q.2) : MemoryRegionId × MemoryVersionId)) = l :=
    fun l ↦ List.map_id l
  cases hg : g.blocks with
  | nil =>
      rw [hg] at hfinished
      generalize headBlocks f initial params = headed at hfinished ⊢
      cases hfinished
      exact .nil
  | cons b' bs' =>
      rw [hg, List.map_cons, List.nodup_cons] at hids
      rw [hg, List.tail_cons] at hparams
      have htail : List.Forall₂ (fun (p : HeadedBlock) b ↦ g.headVersions b = p.2) params bs' := by
        refine (Lib.forall₂_mem hparams).imp ?_
        rintro p b ⟨_, hb, hparam⟩
        have hne : b'.id ≠ b.id := fun heq ↦ hids.1 (heq ▸ List.mem_map_of_mem hb)
        simp only [KirFunction.headVersions, hg, List.head?_cons, Option.map_some,
          Option.some.injEq, hne, if_false, hparam, List.map_map]
        exact hswap p.2
      cases hf : f.blocks with
      | nil =>
          rw [hf] at hall
          cases hall
          simp [headBlocks, hf, hg] at hfinished
      | cons b₀ bs =>
          simp only [headBlocks, hf, List.head?_cons, Option.map_some, Option.toList_some,
            List.singleton_append]
          refine .cons ?_ htail
          simp only [KirFunction.headVersions, hg, List.head?_cons, Option.map_some, if_true,
            hinitial, List.map_map]
          exact hswap initial

/-- The rebuilt function is threaded, and its versions are those allocated. -/
theorem rebuild_threaded
    (h : rebuildFunctionMemorySsa f map partitions conservative next = .ok (g, next'))
    (hids : (f.blocks.map (·.id)).Nodup) (hdistinct : partitions.Nodup) :
    (∃ exit, MemoryThreaded g partitions exit) ∧
      g.memoryVersions.Perm (List.range' next (next' - next)) ∧ next ≤ next' ∧
      List.Forall₂ (RebuiltBlock map conservative) f.blocks g.blocks ∧
      g = { f with initialMemory := g.initialMemory, blocks := g.blocks } := by
  obtain ⟨initial, params, next₁, next₂, exit, hinitial, hparams, hfinished, houtputs, hle, hg⟩ :=
    rebuild_stages h hids
  obtain ⟨hregions, hversions, hnext₁⟩ := allocateVersions_spec hinitial
  obtain ⟨hall, hparamVersions, hle'⟩ := allocateBlockParams_spec hparams
  have hheaded := headBlocks_headed hregions hall
  have hrebuilt : List.Forall₂ (RebuiltBlock map conservative) f.blocks g.blocks :=
    Lib.forall₂_trans (fun _ _ _ hp hb ↦ hb.rebuilt hp) hheaded hfinished
  have hblockIds : g.blocks.map (·.id) = f.blocks.map (·.id) :=
    Lib.map_eq_of_forall₂ hrebuilt fun _ _ hb ↦ congrArg (·.id) hb.code
  have hinitialMemory : g.initialMemory = initial.map fun p ↦ ⟨p.1, p.2⟩ := by rw [hg]
  obtain ⟨hentry, hparamBlocks⟩ := finished_params hall hfinished
  have hheads := finished_headVersions hall hfinished hinitialMemory (hblockIds ▸ hids)
  have hparamRange : g.blocks.flatMap (fun b ↦ b.memoryParams.map (·.version)) =
      List.range' next₁ (next₂ - next₁) := by
    have htail : g.blocks.tail.map (fun b ↦ b.memoryParams.map (·.version)) =
        params.map fun p ↦ p.2.map (·.2) :=
      Lib.map_eq_of_forall₂ hparamBlocks fun p b hb ↦ by simp [hb]
    rw [← hparamVersions, List.flatMap_def, List.flatMap_def, ← htail]
    cases hblocks : g.blocks with
    | nil => rfl
    | cons b bs => simp [hentry b (by rw [hblocks]; rfl)]
  have hperm : g.memoryVersions.Perm (List.range' next (next' - next)) := by
    refine (memoryVersions_perm g).trans (List.Perm.of_eq ?_)
    rw [hparamRange, houtputs, hinitialMemory, List.map_map]
    have hfirst : initial.map (KirInitialMemory.version ∘ fun p ↦ ⟨p.1, p.2⟩) =
        List.range' next (next₁ - next) := by
      rw [hnext₁, Nat.add_sub_cancel_left, ← hversions]
      rfl
    have hjoin : ∀ a b c : Nat, a ≤ b → b ≤ c →
        List.range' a (b - a) ++ List.range' b (c - b) = List.range' a (c - a) := by
      intro a b c hab hbc
      rw [show c - a = (b - a) + (c - b) by omega, ← List.range'_append_1,
        show a + (b - a) = b by omega]
    rw [hfirst, hjoin _ _ _ hle' hle, hjoin _ _ _ (by omega) (by omega)]
  have hnodup : g.memoryVersions.Nodup := hperm.nodup_iff.mpr List.nodup_range'
  refine ⟨⟨exit, hdistinct, hblockIds ▸ hids, hnodup, ?_, hentry, ?_, ?_, ?_, ?_⟩, hperm, by omega,
    hrebuilt, ?_⟩
  · rw [hinitialMemory, List.map_map]
    exact hregions
  · intro b hb
    obtain ⟨p, hp, hparam⟩ := Lib.forall₂_mem_right hparamBlocks hb
    obtain ⟨_, _, _, hregion⟩ := Lib.forall₂_mem_right hall hp
    rw [hparam, List.map_map]
    exact hregion
  · intro b hb
    obtain ⟨p, _, hp, hversions⟩ := Lib.forall₂_mem_right (Lib.forall₂_and hfinished hheads) hb
    rw [hversions]
    exact hp.chained
  · intro b hb edge hedge
    obtain ⟨p, _, hp⟩ := Lib.forall₂_mem_right hfinished hb
    obtain ⟨versions, hat, hargs⟩ := (rewriteTerminator_eq_ok hp.terminator).2.1 edge hedge
    obtain ⟨q, hq, heq⟩ := List.mem_map.mp (List.mem_reverse.mp (Lib.mem_of_lookup hat))
    obtain ⟨hid, rfl⟩ := Prod.mk.inj heq
    obtain ⟨target, htarget, htargetFinished⟩ := Lib.forall₂_mem_left hfinished hq
    obtain ⟨_, _, hqHeaded⟩ := Lib.forall₂_mem_right hheaded hq
    refine ⟨⟨target, htarget, ?_⟩, ?_⟩
    · rw [← hid, htargetFinished.frame]
    · rw [hargs, ← hqHeaded.regions, List.map_map]
      rfl
  · intro b hb value memory effectOrder hreturn
    obtain ⟨p, _, hp⟩ := Lib.forall₂_mem_right hfinished hb
    have hsame := (rewriteTerminator_eq_ok hp.terminator).2.2 _ _ _ hreturn
    exact withReturnMemory_return (hsame.trans hreturn)
  · rw [hg]

end Rebuild

end CalcKernel
