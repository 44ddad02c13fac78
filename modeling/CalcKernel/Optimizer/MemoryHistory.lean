import CalcKernel.Kir.Activation
import CalcKernel.Optimizer.MemoryRevalidation

/-!
# Memory versions along an activation

The write that a version stands for in the course of an activation, and the last
write to a partition.  In a refined function the two agree for every current
version, and writes that may overlap belong to one partition.
-/

namespace CalcKernel

/-- The history back to the write a version stands for; nothing for an initial version. -/
def writtenSince : List Moment → MemoryVersionId → List Moment
  | [], _ => []
  | ⟨.enter _, _⟩ :: _, _ => []
  | ⟨.execute i, env⟩ :: past, v =>
      if i.memory.bind (·.output) = some v then ⟨.execute i, env⟩ :: past
      else writtenSince past v
  | ⟨.follow edge b, _⟩ :: past, v =>
      match ((b.memoryParams.map (·.version)).zip edge.memoryArgs).lookup v with
      | some argument => writtenSince past argument
      | none => writtenSince past v

/-- The instruction writes to the partition. -/
def KirInstruction.WritesTo (i : KirInstruction) (r : MemoryRegionId) : Prop :=
  ∃ memory, i.memory = some memory ∧ memory.region = r ∧ memory.output.isSome

instance (i : KirInstruction) (r : MemoryRegionId) : Decidable (i.WritesTo r) :=
  decidable_of_iff (i.memory.any fun memory ↦ memory.region = r && memory.output.isSome) (by
    simp [KirInstruction.WritesTo, Option.any_eq_true])

/-- The history back to the last write to a partition; nothing when there was none. -/
def lastWrite (r : MemoryRegionId) : List Moment → List Moment
  | [] => []
  | ⟨.execute i, env⟩ :: past =>
      if i.WritesTo r then ⟨.execute i, env⟩ :: past else lastWrite r past
  | ⟨.enter _, _⟩ :: past | ⟨.follow _ _, _⟩ :: past => lastWrite r past

/-- Every write to the partition lies in the history back to the last one. -/
theorem suffix_lastWrite {r : MemoryRegionId} {past older : List Moment} {i : KirInstruction}
    {env : Env} (h : ⟨.execute i, env⟩ :: older <:+ past) (hi : i.WritesTo r) :
    ⟨.execute i, env⟩ :: older <:+ lastWrite r past := by
  induction past with
  | nil => exact absurd (List.suffix_nil.mp h) (by simp)
  | cons moment past ih =>
      rcases List.suffix_cons_iff.mp h with heq | htail
      · cases heq
        have hlast : lastWrite r (⟨.execute i, env⟩ :: older) = ⟨.execute i, env⟩ :: older :=
          if_pos hi
        exact hlast.symm ▸ List.suffix_refl _
      · obtain ⟨event, env'⟩ := moment
        cases event with
        | enter | follow => exact ih htail
        | execute j =>
            rw [lastWrite]
            split
            · exact htail.trans (List.suffix_cons _ _)
            · exact ih htail

/-- Every current version stands for the last write to its partition. -/
def Tracks (past : List Moment) (current : VersionMap) : Prop :=
  ∀ r v, current r = some v → writtenSince past v = lastWrite r past

section Activation

variable {t : TargetModel} {g : KirFunction} {partitions : List MemoryRegionId}
variable {exit : BlockId → VersionMap} {past : List Moment} {frame : Frame} {memory : Memory}

/-- One instruction of a chain keeps the current versions in step with the history. -/
theorem Chained.tracks_execute {current last : VersionMap} {i : KirInstruction}
    {rest : List KirInstruction} {env : Env} (h : Chained current (i :: rest) last)
    (htracks : Tracks past current) :
    ∃ next, Chained next rest last ∧ Tracks (⟨.execute i, env⟩ :: past) next := by
  have hkeep : i.memory.bind (·.output) = none → Tracks (⟨.execute i, env⟩ :: past) current := by
    intro hnone r v hv
    have hno : ¬ i.WritesTo r := by
      rintro ⟨memory, hmemory, _, houtput⟩
      rw [hmemory, Option.bind_some] at hnone
      rw [hnone] at houtput
      cases houtput
    rw [writtenSince, lastWrite, if_neg (by simp [hnone]), if_neg hno]
    exact htracks r v hv
  simp only [Chained] at h
  split at h
  case h_1 hmemory => exact ⟨current, h, hkeep (by simp [hmemory])⟩
  case h_2 memory hmemory =>
  obtain ⟨_, h⟩ := h
  split at h
  case h_1 houtput => exact ⟨current, h, hkeep (by simp [hmemory, houtput])⟩
  case h_2 output houtput =>
  refine ⟨_, h.2, fun r v hv ↦ ?_⟩
  have hbind : i.memory.bind (·.output) = some output := by simp [hmemory, houtput]
  rw [Function.update_apply] at hv
  split at hv
  · rename_i hr
    cases hv
    have hwrites : i.WritesTo r := ⟨memory, hmemory, hr.symm, by simp [houtput]⟩
    rw [writtenSince, lastWrite, if_pos hbind, if_pos hwrites]
  · rename_i hr
    have hne : i.memory.bind (·.output) ≠ some v := by
      rw [hbind]
      intro heq
      exact h.1 r (heq ▸ hv)
    have hno : ¬ i.WritesTo r := by
      rintro ⟨memory', hmemory', hregion, _⟩
      cases hmemory.symm.trans hmemory'
      exact hr hregion.symm
    rw [writtenSince, lastWrite, if_neg hne, if_neg hno]
    exact htracks r v hv

theorem memoryParams_nodup {b : KirBlock} (hnodup : g.memoryVersions.Nodup) (hb : b ∈ g.blocks) :
    (b.memoryParams.map (·.version)).Nodup := by
  have hparams := (List.nodup_append.mp (List.nodup_append.mp
    ((memoryVersions_perm g).nodup_iff.mp hnodup)).2.1).1
  exact (List.nodup_flatMap.mp hparams).1 b hb

/-- Following an edge passes each partition's last write on to the target's parameter. -/
theorem MemoryThreaded.tracks_follow (h : MemoryThreaded g partitions exit) {b target : KirBlock}
    (hb : b ∈ g.blocks) {edge : KirEdge} (hedge : edge ∈ b.terminator.edges)
    (htarget : target ∈ g.blocks) (hid : target.id = edge.target)
    (hentry : g.blocks.head?.map (·.id) ≠ some edge.target) (htracks : Tracks past (exit b.id))
    (env : Env) :
    Tracks (⟨.follow edge target, env⟩ :: past) fun r ↦ (g.headVersions target).lookup r := by
  intro r v hv
  have hmem := Lib.mem_of_lookup hv
  rw [KirFunction.headVersions, if_neg (hid ▸ hentry)] at hmem
  have hregions := h.params_of_not_entry htarget (hid ▸ hentry)
  have hexit := h.exit_args hb hedge
  obtain ⟨j, hj, hparam⟩ := List.mem_iff_getElem.mp hmem
  rw [List.length_map] at hj
  rw [List.getElem_map] at hparam
  cases hparam
  have hlen : target.memoryParams.length = edge.memoryArgs.length := by
    rw [← hexit.length_eq, ← hregions, List.length_map]
  have hargument : exit b.id target.memoryParams[j].region = some edge.memoryArgs[j] := by
    have hat := (List.forall₂_iff_get.mp hexit).2 j (by rw [← hregions]; simpa using hj)
      (hlen ▸ hj)
    simpa [← hregions] using hat
  have hlookup : ((target.memoryParams.map (·.version)).zip edge.memoryArgs).lookup
      target.memoryParams[j].version = some edge.memoryArgs[j] := by
    refine Lib.lookup_of_mem ?_ ?_
    · rw [List.map_fst_zip (by simp [hlen])]
      exact memoryParams_nodup h.versions htarget
    · refine List.mem_iff_getElem.mpr ⟨j, by simp [hlen]; omega, by simp⟩
  rw [writtenSince, lastWrite, hlookup]
  exact htracks _ _ hargument

/-- The run lemma: in a threaded function without edges to its entry, the current versions stand
for the last writes. -/
theorem MemoryThreaded.tracks (h : MemoryThreaded g partitions exit)
    (hentry : ∀ b ∈ g.blocks, ∀ edge ∈ b.terminator.edges,
      g.blocks.head?.map (·.id) ≠ some edge.target)
    (hact : Activation t g past frame memory) :
    ∃ current, Chained current frame.rest (exit frame.block.id) ∧ Tracks past current := by
  induction hact with
  | enter henter =>
      obtain ⟨_, b, hb, rfl⟩ := KirFunction.enter_eq_some henter
      exact ⟨_, h.chained b (List.mem_of_head? hb), fun _ _ _ ↦ rfl⟩
  | execute hact hrest _ ih | call hact hrest _ _ ih =>
      obtain ⟨current, hchained, htracks⟩ := ih
      rw [hrest] at hchained
      exact hchained.tracks_execute htracks
  | follow hact hrest htaken hfollow ih =>
      obtain ⟨current, hchained, htracks⟩ := ih
      obtain ⟨target, xs, htarget, _, _, rfl⟩ := Frame.follow_eq_some hfollow
      rw [hact.function_eq] at htarget
      obtain ⟨hmem, hid⟩ := KirFunction.mem_blocks_of_block? htarget
      rw [hrest] at hchained
      have hexit : exit _ = current := hchained
      have hedge := KirTerminator.taken_mem_edges htaken
      exact ⟨_, h.chained target hmem, h.tracks_follow hact.block_mem hedge hmem hid
        (hentry _ hact.block_mem _ hedge) (hexit ▸ htracks) _⟩

end Activation

end CalcKernel
