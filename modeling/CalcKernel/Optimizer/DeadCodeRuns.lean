import CalcKernel.Optimizer.DeadCode
import CalcKernel.Optimizer.DroppingValid

/-!
# Modules without dead code

Dead code elimination comes to its end on every module.  A verified module stays verified, its
calls go as before, and no dead instruction is left.
-/

namespace CalcKernel

open Lib

/-! ## The region table -/

namespace KirFunction

variable {f : KirFunction} {regions : List KirMemoryRegion} {r : KirMemoryRegion}

/-- Partitions and parents of a table are in the table. -/
def RegionsClosed (regions : List KirMemoryRegion) : Prop :=
  ∀ r ∈ regions, r.partition ∈ regions.map (·.id) ∧ ∀ parent ∈ r.parent, parent ∈ regions.map (·.id)

theorem regionErrors_eq_nil : regionErrors f = [] ↔ RegionsClosed f.regions := by
  unfold regionErrors RegionsClosed
  rw [List.flatMap_eq_nil_iff]
  refine forall₂_congr fun r _ ↦ ?_
  rw [List.append_eq_nil_iff]
  refine and_congr (by simp) ?_
  cases r.parent <;> simp

/-- A region that is named, or whose value is still there, survives a round. -/
theorem mem_descriptorRound (hr : r ∈ regions)
    (h : r.id ∈ f.directRegions ∨ ∀ v ∈ r.origin.value?, v ∈ f.valueIds) :
    r ∈ f.descriptorRound regions := by
  refine List.mem_filter.mpr ⟨hr, Bool.or_eq_true_iff.mpr ?_⟩
  rcases h with hdirect | horigin
  · exact .inl (decide_eq_true (List.mem_append_left _ hdirect))
  · refine .inr ?_
    cases hkind : r.origin with
    | conservative | parameter v => rfl
    | rawSlice v | subslice v => exact decide_eq_true (horigin v (by rw [hkind]; rfl))

/-- A region that another one refers to survives a round. -/
theorem mem_descriptorRound_of_referenced (hr : r ∈ regions) {other : KirMemoryRegion}
    (hother : other ∈ regions) (h : other.partition = r.id ∨ other.parent = some r.id) :
    r ∈ f.descriptorRound regions := by
  refine List.mem_filter.mpr ⟨hr, Bool.or_eq_true_iff.mpr (.inl (decide_eq_true ?_))⟩
  refine List.mem_append_right _ (List.mem_flatMap.mpr ⟨other, hother, ?_⟩)
  rcases h with h | h
  · rw [h]
    exact List.mem_append_right _ (List.mem_singleton_self _)
  · rw [h]
    exact List.mem_append_left _ (List.mem_singleton_self _)

theorem RegionsClosed.round (h : RegionsClosed regions) :
    RegionsClosed (f.descriptorRound regions) := by
  intro r hr
  have hmem := List.mem_of_mem_filter hr
  obtain ⟨hpartition, hparent⟩ := h r hmem
  constructor
  · obtain ⟨q, hq, heq⟩ := List.mem_map.mp hpartition
    exact List.mem_map.mpr ⟨q, mem_descriptorRound_of_referenced hq hmem (.inl heq.symm), heq⟩
  · intro parent hmember
    obtain ⟨q, hq, rfl⟩ := List.mem_map.mp (hparent parent hmember)
    exact List.mem_map_of_mem (mem_descriptorRound_of_referenced hq hmem (.inr hmember))

/-- What rounds over the table of a function leave. -/
structure Described (f : KirFunction) (regions : List KirMemoryRegion) : Prop where
  sublist : regions.Sublist f.regions
  closed : RegionsClosed f.regions → RegionsClosed regions
  kept : ∀ r ∈ f.regions,
    r.id ∈ f.directRegions ∨ (∀ v ∈ r.origin.value?, v ∈ f.valueIds) → r ∈ regions

theorem Described.round (h : f.Described regions) : f.Described (f.descriptorRound regions) where
  sublist := List.filter_sublist.trans h.sublist
  closed hclosed := (h.closed hclosed).round
  kept r hr hkept := mem_descriptorRound (h.kept r hr hkept) hkept

theorem described_iterate (f : KirFunction) (n : Nat) :
    f.Described (f.descriptorRound^[n] f.regions) := by
  induction n with
  | zero => exact ⟨List.Sublist.refl _, fun hclosed ↦ hclosed, fun _ hr _ ↦ hr⟩
  | succ n ih =>
      rw [Function.iterate_succ_apply']
      exact ih.round

/-! ## Another region table -/

theorem of_ite_nil {c : Prop} [Decidable c] {message : String}
    (h : (if c then [] else [message]) = []) : c := by
  by_contra hc
  rw [if_neg hc] at h
  cases h

/-- The table is read by the memory checks of vector accesses only. -/
theorem recordErrors_of_described (h : f.Described regions) {b : KirBlock} (hb : b ∈ f.blocks)
    {i : KirInstruction} (hi : i ∈ b.instructions) (hdefined : ∀ v ∈ i.uses, v ∈ f.valueIds)
    (herrors : i.recordErrors f = []) :
    i.recordErrors { f with regions := regions } = [] := by
  have hvector : ∀ access store, access.slice ∈ i.uses →
      KirInstruction.recordErrors.vectorErrors f i access store = [] →
      KirInstruction.recordErrors.vectorErrors { f with regions := regions } i access store = [] := by
    intro access store hslice hbefore
    unfold KirInstruction.recordErrors.vectorErrors at hbefore ⊢
    refine if_pos ?_
    obtain ⟨memory, hmemory, hvalid⟩ := (Option.any_eq_true _ _).mp (of_ite_nil hbefore)
    refine (Option.any_eq_true _ _).mpr ⟨memory, hmemory, ?_⟩
    simp only [Bool.and_eq_true] at hvalid ⊢
    obtain ⟨⟨⟨hroot, horigin⟩, hstore⟩, heffect⟩ := hvalid
    refine ⟨⟨⟨?_, ?_⟩, hstore⟩, heffect⟩
    · obtain ⟨r, hr, hroot⟩ := List.any_eq_true.mp hroot
      refine List.any_eq_true.mpr ⟨r, h.kept r hr (.inl ?_), hroot⟩
      rw [of_decide_eq_true (Bool.and_eq_true_iff.mp hroot).1]
      refine List.mem_append_right _ (List.mem_flatMap.mpr ⟨b, hb, List.mem_append_right _
        (List.mem_flatMap.mpr ⟨i, hi, List.mem_append_left _ ?_⟩)⟩)
      rw [hmemory]
      exact List.mem_singleton_self _
    · obtain ⟨r, hr, horigin⟩ := List.any_eq_true.mp horigin
      refine List.any_eq_true.mpr ⟨r, h.kept r hr (.inr fun v hv ↦ ?_), horigin⟩
      rw [of_decide_eq_true (Bool.and_eq_true_iff.mp horigin).2] at hv
      cases hv
      exact hdefined _ hslice
  unfold KirInstruction.recordErrors at herrors ⊢
  cases hkind : i.kind with
  | vectorLoad access region | vectorStore access v region =>
      rw [hkind] at herrors
      exact hvector access _ (by simp [KirInstruction.uses, KirVectorMemoryAccess.uses, hkind]) herrors
  | versionPredicate predicate =>
      rw [hkind] at herrors
      exact herrors
  | _ => rfl

theorem blockMemoryErrors_of_described (h : f.Described regions) {b : KirBlock}
    (hb : b ∈ f.blocks) (hdefined : ∀ i ∈ b.instructions, ∀ v ∈ i.uses, v ∈ f.valueIds)
    {dominators : Dominators} (herrors : blockMemoryErrors f dominators b = []) :
    blockMemoryErrors { f with regions := regions } dominators b = [] := by
  obtain ⟨herrors, hreturn⟩ := List.append_eq_nil_iff.mp herrors
  obtain ⟨hinstructions, hedges⟩ := List.append_eq_nil_iff.mp herrors
  refine List.append_eq_nil_iff.mpr ⟨List.append_eq_nil_iff.mpr ⟨?_, hedges⟩, hreturn⟩
  refine List.flatMap_eq_nil_iff.mpr fun pair hmem ↦ ?_
  obtain ⟨hrecord, hmemory⟩ := List.append_eq_nil_iff.mp
    (List.flatMap_eq_nil_iff.mp hinstructions pair hmem)
  have hi := List.mem_of_getElem? (List.mem_zipIdx_iff_getElem?.mp hmem)
  exact List.append_eq_nil_iff.mpr
    ⟨recordErrors_of_described h hb hi (hdefined _ hi) hrecord, hmemory⟩

end KirFunction

section Regions

variable {m : KirModule} {regions : KirFunction → List KirMemoryRegion}

theorem mem_valueIds_of_useErrors {f : KirFunction} {dominators : Dominators} {block : BlockId}
    {index : Nat} {v : ValueId} (h : valueUseErrors f dominators block index v = []) :
    v ∈ f.valueIds := by
  unfold valueUseErrors at h
  split at h
  · cases h
  · rename_i d hd
    rw [← KirFunction.valueDefinitions_keys]
    exact List.mem_map_of_mem (f := Prod.fst) (mem_of_lookup hd)

/-- A verified module stays verified with the tables that describe its functions. -/
theorem KirModule.Verified.withRegions (hm : m.Verified)
    (h : ∀ f ∈ m.functions, f.Described (regions f)) :
    (m.mapFunctions fun f ↦ { f with regions := regions f }).Verified := by
  have hsame : (m.mapFunctions fun f ↦ { f with regions := regions f }).functions =
      m.functions.map fun f ↦ { f with regions := regions f } := rfl
  have hdominators : ∀ f : KirFunction,
      ({ f with regions := regions f } : KirFunction).computeKirDominators =
        f.computeKirDominators := fun f ↦ KirFunction.computeKirDominators_congr rfl rfl
  obtain ⟨hids, hchecked⟩ := List.append_eq_nil_iff.mp hm.values
  obtain ⟨hmemoryIds, hmemory⟩ := List.append_eq_nil_iff.mp hm.memory
  obtain ⟨hmemoryIds, hversions⟩ := List.append_eq_nil_iff.mp hmemoryIds
  obtain ⟨hregions, hblocks⟩ := List.append_eq_nil_iff.mp hmemoryIds
  refine ⟨?_, ?_, ?_, ?_, ?_⟩
  · refine List.append_eq_nil_iff.mpr ⟨?_, ?_⟩
    · rw [hsame, List.flatMap_map, List.flatMap_map, List.flatMap_map]
      exact hids
    · refine List.flatMap_eq_nil_iff.mpr fun f' hf' ↦ ?_
      obtain ⟨f, hf, rfl⟩ := List.mem_map.mp hf'
      rw [hdominators]
      exact List.flatMap_eq_nil_iff.mp hchecked f hf
  · refine List.append_eq_nil_iff.mpr ⟨List.append_eq_nil_iff.mpr
      ⟨List.append_eq_nil_iff.mpr ⟨?_, ?_⟩, ?_⟩, ?_⟩
    · refine duplicateErrors_eq_nil.mpr ⟨(duplicateErrors_eq_nil.mp hregions).1.sublist ?_, by simp⟩
      rw [hsame, List.flatMap_map]
      exact List.Sublist.flatMap_right _ fun f hf ↦ (h f hf).sublist.map _
    · rw [hsame, List.flatMap_map]
      exact hblocks
    · rw [hsame, List.flatMap_map]
      exact hversions
    · refine List.flatMap_eq_nil_iff.mpr fun f' hf' ↦ ?_
      obtain ⟨f, hf, rfl⟩ := List.mem_map.mp hf'
      obtain ⟨hregion, hblocks⟩ := List.append_eq_nil_iff.mp
        (List.flatMap_eq_nil_iff.mp hmemory f hf)
      refine List.append_eq_nil_iff.mpr ⟨?_, List.flatMap_eq_nil_iff.mpr fun b hb ↦ ?_⟩
      · exact KirFunction.regionErrors_eq_nil.mpr
          ((h f hf).closed (KirFunction.regionErrors_eq_nil.mp hregion))
      · rw [hdominators]
        refine KirFunction.blockMemoryErrors_of_described (h f hf) hb (fun i hi v hv ↦ ?_)
          (List.flatMap_eq_nil_iff.mp hblocks b hb)
        obtain ⟨j, hj⟩ := List.mem_iff_getElem?.mp hi
        obtain ⟨herrors, -⟩ := List.append_eq_nil_iff.mp
          (List.flatMap_eq_nil_iff.mp (List.flatMap_eq_nil_iff.mp hchecked f hf) b hb)
        obtain ⟨herrors, -⟩ := List.append_eq_nil_iff.mp herrors
        obtain ⟨herrors, -⟩ := List.append_eq_nil_iff.mp herrors
        obtain ⟨huses, -⟩ := List.append_eq_nil_iff.mp (List.flatMap_eq_nil_iff.mp herrors (i, j)
          (List.mk_mem_zipIdx_iff_getElem?.mpr hj))
        exact mem_valueIds_of_useErrors (List.flatMap_eq_nil_iff.mp huses v hv)
  · rw [hsame, List.map_map]
    exact hm.functionIds
  · rw [hsame, List.map_map]
    exact hm.typed.names
  · intro f' hf'
    obtain ⟨f, hf, rfl⟩ := List.mem_map.mp hf'
    obtain ⟨hvalues, hblockIds, hinstructionIds, hguards, htyped⟩ := hm.typed.functions f hf
    refine ⟨hvalues, hblockIds, hinstructionIds, hguards, fun b hb ↦ ?_⟩
    obtain ⟨hall, hterminator⟩ := Bool.and_eq_true_iff.mp (htyped b hb)
    refine Bool.and_eq_true_iff.mpr ⟨List.all_eq_true.mpr fun i hi ↦ ?_, hterminator⟩
    rw [wellTyped_mapFunctions (T := fun f ↦ { f with regions := regions f }) (fun _ ↦ rfl)
      (fun _ ↦ rfl) fun _ ↦ rfl]
    exact List.all_eq_true.mp hall i hi

end Regions

/-! ## The pass -/

section Pass

variable {m : KirModule} {protected_ : List InstructionId}

theorem sheds_dead {f : KirFunction} (hf : f ∈ m.functions) :
    f.Sheds (fun i ↦ !isDeadPureInstruction (collectUsedValues m) protected_ i)
      (· ∈ collectUsedValues m) := by
  have hdead : ∀ i : KirInstruction,
      (!isDeadPureInstruction (collectUsedValues m) protected_ i) = false →
        i.memory = none ∧ i.kind.isPure = true ∧ ∀ v ∈ i.defs, v ∉ collectUsedValues m := by
    intro i hi
    simp only [isDeadPureInstruction, Bool.not_eq_false', Bool.and_eq_true, List.all_eq_true,
      Option.isNone_iff_eq_none, decide_eq_true_eq] at hi
    obtain ⟨⟨⟨⟨-, hmemory⟩, hpure⟩, -⟩, hunused⟩ := hi
    refine ⟨hmemory, hpure, fun v hv ↦ ?_⟩
    obtain ⟨result, hresult, rfl⟩ := List.mem_map.mp hv
    exact hunused result hresult
  refine ⟨fun b hb i hi _ v hv ↦ mem_collectUsedValues hf hb (.inl ⟨i, hi, hv⟩),
    fun b hb v hv ↦ mem_collectUsedValues hf hb (.inr hv), fun b _ i _ h ↦ (hdead i h).2.2,
    fun b _ i _ h ↦ (hdead i h).1, fun b _ i _ h c k hkind ↦ ?_⟩
  have hpure := (hdead i h).2.1
  rw [hkind] at hpure
  cases hpure

theorem verified_iterate (hm : m.Verified) (n : Nat) :
    ((removeDeadInstructions protected_)^[n] m).Verified := by
  induction n with
  | zero => exact hm
  | succ n ih =>
      rw [Function.iterate_succ_apply']
      exact ih.keepOnly fun f hf ↦ sheds_dead hf

theorem storesRecorded_of_verified (hm : m.Verified) : m.StoresRecorded := by
  intro i hi access v region hkind hnone
  obtain ⟨f, hf, hi⟩ := List.mem_flatMap.mp hi
  obtain ⟨b, hb, hi⟩ := List.mem_flatMap.mp hi
  obtain ⟨j, hj⟩ := List.mem_iff_getElem?.mp hi
  obtain ⟨-, hfunctions⟩ := List.append_eq_nil_iff.mp hm.memory
  obtain ⟨-, hblocks⟩ := List.append_eq_nil_iff.mp (List.flatMap_eq_nil_iff.mp hfunctions f hf)
  obtain ⟨herrors, -⟩ := List.append_eq_nil_iff.mp (List.flatMap_eq_nil_iff.mp hblocks b hb)
  obtain ⟨hinstructions, -⟩ := List.append_eq_nil_iff.mp herrors
  obtain ⟨hrecord, -⟩ := List.append_eq_nil_iff.mp (List.flatMap_eq_nil_iff.mp hinstructions (i, j)
    (List.mk_mem_zipIdx_iff_getElem?.mpr hj))
  unfold KirInstruction.recordErrors at hrecord
  rw [hkind] at hrecord
  obtain ⟨memory, hmemory, -⟩ := (Option.any_eq_true _ _).mp (KirFunction.of_ite_nil hrecord)
  cases hnone.symm.trans hmemory

/-- The tables the functions are left with. -/
theorem exists_descriptorRegions (f : KirFunction) : ∃ regions, f.Described regions ∧
    f.removeDeadDescriptorRegions = some { f with regions := regions } := by
  obtain ⟨n, hn, -⟩ := removeDeadDescriptorRegions_eq f
  exact ⟨_, f.described_iterate n, hn⟩

end Pass

/-- Dead code elimination ends.  It keeps a module verified and what its functions do, and leaves
no instruction that it could remove. -/
theorem runDeadCodeElimination_preserves (m : KirModule) (protected_ : List InstructionId)
    (hm : m.Verified) :
    ∃ m', runDeadCodeElimination m protected_ = some m' ∧ m'.Verified ∧ m.RefinedBy m' ∧
      ∀ f ∈ m'.functions, ∀ i ∈ f.instructions,
        isDeadPureInstruction (collectUsedValues m') protected_ i = false := by
  obtain ⟨n, hn, hfixed⟩ :=
    (shrinks_removeDeadInstructions protected_).rounds_eq (Nat.lt_succ_self m.instructionCount)
  have hverified : ((removeDeadInstructions protected_)^[n] m).Verified := verified_iterate hm n
  have hrefined : m.RefinedBy ((removeDeadInstructions protected_)^[n] m) :=
    iterate_refined (storesRecorded_of_verified hm) n
  generalize (removeDeadInstructions protected_)^[n] m = left at hn hfixed hverified hrefined
  choose regions hregions hremoved using exists_descriptorRegions
  have hfunctions : left.functions.mapM KirFunction.removeDeadDescriptorRegions =
      some (left.functions.map fun f ↦ { f with regions := regions f }) := by
    rw [show KirFunction.removeDeadDescriptorRegions = fun f ↦ some { f with regions := regions f }
      from funext hremoved]
    exact List.mapM_pure
  have hinstructions : (left.mapFunctions fun f ↦ { f with regions := regions f }).functions.flatMap
      (·.instructions) = left.functions.flatMap (·.instructions) := by
    rw [KirModule.mapFunctions, List.flatMap_map]
    rfl
  have hused : collectUsedValues (left.mapFunctions fun f ↦ { f with regions := regions f }) =
      collectUsedValues left := by
    rw [collectUsedValues, KirModule.mapFunctions, List.flatMap_map]
    rfl
  refine ⟨left.mapFunctions fun f ↦ { f with regions := regions f }, ?_,
    hverified.withRegions fun f _ ↦ hregions f, hrefined.trans
      (KirModule.refinedBy_mapFunctions fun f _ ↦ ⟨Rewiring.ofBlocks rfl rfl rfl⟩), ?_⟩
  · rw [runDeadCodeElimination, hn, Option.bind_eq_bind, Option.bind_some, hfunctions]
    rfl
  · intro f hf i hi
    rw [hused]
    exact not_dead_of_fixed hfixed (hinstructions ▸ List.mem_flatMap.mpr ⟨f, hf, hi⟩)

/-- `let s = items[0..0]; let t = s;` with the region of the subslice. -/
def unusedSubslice : KirModule :=
  ⟨⟨.c, .unchecked, .unchecked, .disabled⟩, none, [],
    [⟨0, "unused", true, [⟨0, "items", .slice .u32⟩], .void,
      [⟨0, .parameter 0, none, 0, none⟩, ⟨1, .subslice 2, some 0, 0, none⟩], [⟨0, 0⟩], [],
      [⟨0, "bb0", [], [], [⟨0, [⟨1, .scalar .u32⟩], .constInt "0", none, none⟩,
          ⟨1, [⟨2, .scalar (.slice .u32)⟩], .subslice 0 1 1, none, none⟩,
          ⟨2, [⟨3, .scalar (.slice .u32)⟩], .copy 2, none, none⟩],
        .return none [(0, 0)] 0⟩]⟩]⟩

/-- The copy goes first, then what it copied with its region, then the bound. -/
theorem runDeadCodeElimination_unusedSubslice :
    ∃ m', runDeadCodeElimination unusedSubslice [] = some m' ∧
      m'.functions.map (fun f ↦ (f.instructions, f.regions.map (·.id))) = [([], [0])] ∧
      m'.Verified ∧ unusedSubslice.RefinedBy m' := by
  obtain ⟨m', hrun, hverified, hrefined, -⟩ :=
    runDeadCodeElimination_preserves unusedSubslice [] (by decide +kernel)
  refine ⟨m', hrun, ?_, hverified, hrefined⟩
  have hleft : (runDeadCodeElimination unusedSubslice []).map (·.functions.map fun f ↦
      (f.instructions, f.regions.map (·.id))) = some [([], [0])] := by decide +kernel
  rw [hrun] at hleft
  exact Option.some.inj hleft

end CalcKernel
