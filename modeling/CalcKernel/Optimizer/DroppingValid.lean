import CalcKernel.Kir.Dropping
import CalcKernel.Optimizer.InductionValid
import CalcKernel.Optimizer.MemoryRevalidation
import Mathlib.Data.List.Count
import Mathlib.Data.List.Flatten

/-!
# What is left of a module is valid

A function without instructions that set no memory, are no guards and define nothing that is used
passes the checks it passed before: every definition that is used is still there, and the places
of a block keep their order.
-/

namespace CalcKernel

open Lib

/-! ## Places in a filtered list -/

section Places

variable {α : Type*} {p : α → Bool} {l : List α} {a : α} {j k : Nat}

theorem getElem?_filter_countP (h : l[j]? = some a) (ha : p a = true) :
    (l.filter p)[(l.take j).countP p]? = some a := by
  induction l generalizing j with
  | nil => cases h
  | cons b l ih =>
      cases j with
      | zero =>
          cases h
          rw [List.filter_cons_of_pos ha]
          rfl
      | succ j =>
          have hrest := ih h
          rw [List.take_succ_cons, List.countP_cons]
          cases hb : p b with
          | true => rwa [List.filter_cons_of_pos hb, if_pos rfl, List.getElem?_cons_succ]
          | false => rwa [List.filter_cons_of_neg (by simp [hb]), if_neg (by simp), Nat.add_zero]

theorem exists_getElem?_of_filter (h : (l.filter p)[k]? = some a) :
    ∃ j, l[j]? = some a ∧ p a = true ∧ (l.take j).countP p = k := by
  induction l generalizing k with
  | nil => cases h
  | cons b l ih =>
      cases hb : p b with
      | true =>
          rw [List.filter_cons_of_pos hb] at h
          cases k with
          | zero =>
              cases h
              exact ⟨0, rfl, hb, rfl⟩
          | succ k =>
              obtain ⟨j, hj, ha, hcount⟩ := ih h
              exact ⟨j + 1, hj, ha, by rw [List.take_succ_cons, List.countP_cons, hcount, if_pos hb]⟩
      | false =>
          rw [List.filter_cons_of_neg (by simp [hb])] at h
          obtain ⟨j, hj, ha, hcount⟩ := ih h
          refine ⟨j + 1, hj, ha, ?_⟩
          rw [List.take_succ_cons, List.countP_cons, hcount, if_neg (by simp [hb]), Nat.add_zero]

theorem countP_take_lt (h : l[j]? = some a) (ha : p a = true) (hjk : j < k) :
    (l.take j).countP p < (l.take k).countP p := by
  have hsplit : (l.take (j + 1)).countP p = (l.take j).countP p + 1 := by
    rw [List.take_add_one, h, List.countP_append]
    exact congrArg _ (List.countP_cons_of_pos (l := []) ha)
  have hle : (l.take (j + 1)).countP p ≤ (l.take k).countP p :=
    (List.take_sublist_take_left hjk).countP_le
  omega

end Places

/-! ## What may be shed -/

/-- What fails the test sets no memory, is no guard and defines nothing live. -/
structure KirFunction.Sheds (f : KirFunction) (p : KirInstruction → Bool)
    (live : ValueId → Prop) : Prop where
  uses : ∀ b ∈ f.blocks, ∀ i ∈ b.instructions, p i = true → ∀ v ∈ i.uses, live v
  ends : ∀ b ∈ f.blocks, ∀ v ∈ b.terminator.uses, live v
  defs : ∀ b ∈ f.blocks, ∀ i ∈ b.instructions, p i = false → ∀ v ∈ i.defs, ¬live v
  memory : ∀ b ∈ f.blocks, ∀ i ∈ b.instructions, p i = false → i.memory = none
  guard : ∀ b ∈ f.blocks, ∀ i ∈ b.instructions, p i = false → ∀ c k, i.kind ≠ .guard c k

/-- The place of a block an index has moved to. -/
def KirBlock.placeIn (p : KirInstruction → Bool) (b : KirBlock) (j : Nat) : Nat :=
  (b.instructions.take j).countP p

theorem KirBlock.placeIn_length {p : KirInstruction → Bool} {b : KirBlock} :
    b.placeIn p b.instructions.length = (b.keepOnly p).instructions.length := by
  rw [placeIn, List.take_length, keepOnly, List.countP_eq_length_filter]

namespace KirFunction

variable {f : KirFunction} {p : KirInstruction → Bool} {live : ValueId → Prop} {b : KirBlock}
  {v : ValueId}

theorem keepOnly_blockIds : (f.keepOnly p).blockIds = f.blockIds := by
  rw [blockIds, blockIds, keepOnly, List.map_map]
  rfl

theorem keepOnly_dominators :
    (f.keepOnly p).computeKirDominators = f.computeKirDominators := by
  refine computeKirDominators_congr keepOnly_blockIds (funext fun target ↦ ?_)
  rw [flowPredecessors, flowPredecessors, keepOnly, List.flatMap_map]
  rfl

theorem mem_keepOnly_blocks {b' : KirBlock} (h : b' ∈ (f.keepOnly p).blocks) :
    ∃ b ∈ f.blocks, b' = b.keepOnly p := by
  obtain ⟨b, hb, rfl⟩ := List.mem_map.mp h
  exact ⟨b, hb, rfl⟩

theorem keepOnly_block_mem (hb : b ∈ f.blocks) : b.keepOnly p ∈ (f.keepOnly p).blocks :=
  List.mem_map_of_mem hb

theorem keepOnly_valueIds : (f.keepOnly p).valueIds.Sublist f.valueIds := by
  refine (List.Sublist.refl _).append ?_
  rw [keepOnly, List.flatMap_map]
  exact List.Sublist.flatMap_right _ fun b _ ↦
    (List.Sublist.refl _).append (List.filter_sublist.flatMap _)

theorem keepOnly_valueTypes : (f.keepOnly p).valueTypes.Sublist f.valueTypes := by
  refine (List.Sublist.refl _).append ?_
  rw [keepOnly, List.flatMap_map]
  exact List.Sublist.flatMap_right _ fun b _ ↦
    (List.Sublist.refl _).append (List.filter_sublist.flatMap _)

/-- The types of what is live are those of before. -/
theorem keepOnly_valueType? (hf : f.valueIds.Nodup) (h : f.Sheds p live) (hv : live v) :
    (f.keepOnly p).valueType? v = f.valueType? v := by
  have hnodup := keepOnly_valueIds (p := p).nodup hf
  cases htype : f.valueType? v with
  | some type =>
      refine valueType?_of_mem hnodup ?_
      rcases List.mem_append.mp (mem_of_lookup htype) with hparam | hblock
      · exact List.mem_append_left _ hparam
      · obtain ⟨b, hb, hmem⟩ := List.mem_flatMap.mp hblock
        refine List.mem_append_right _ (List.mem_flatMap.mpr ⟨_, keepOnly_block_mem hb, ?_⟩)
        rcases List.mem_append.mp hmem with hparam | hresult
        · exact List.mem_append_left _ hparam
        · obtain ⟨i, hi, hresult⟩ := List.mem_flatMap.mp hresult
          refine List.mem_append_right _ (List.mem_flatMap.mpr ⟨i, ?_, hresult⟩)
          refine List.mem_filter.mpr ⟨hi, ?_⟩
          by_contra hfalse
          obtain ⟨r, hr, heq⟩ := List.mem_map.mp hresult
          cases heq
          exact h.defs b hb i hi (Bool.eq_false_iff.mpr hfalse) _ (List.mem_map_of_mem hr) hv
  | none =>
      cases htype' : (f.keepOnly p).valueType? v with
      | none => rfl
      | some type =>
          rw [valueType?_of_mem hf (keepOnly_valueTypes.subset (mem_of_lookup htype'))] at htype
          cases htype

theorem keepOnly_recordedType? (hf : f.valueIds.Nodup) (h : f.Sheds p live) (hv : live v) :
    (f.keepOnly p).recordedType? v = f.recordedType? v := by
  rw [recordedType?_eq (keepOnly_valueIds.nodup hf), recordedType?_eq hf,
    keepOnly_valueType? hf h hv]

theorem keepOnly_scalarType? (hf : f.valueIds.Nodup) (h : f.Sheds p live) (hv : live v) :
    (f.keepOnly p).scalarType? v = f.scalarType? v := by
  rw [scalarType?, scalarType?, keepOnly_valueType? hf h hv]

/-! ## Definitions and uses -/

/-- The definition of what is live still comes before the places it came before. -/
theorem keepOnly_definition (hf : f.Strict) (h : f.Sheds p live) (hv : live v)
    {d : ValueDefinition} (hd : f.valueDefinition? v = some d) :
    ∃ d', (f.keepOnly p).valueDefinition? v = some d' ∧
      ∀ dominators, ∀ c ∈ f.blocks, ∀ index, d.reaches dominators c.id index = true →
        d'.reaches dominators c.id (c.placeIn p index) = true := by
  have hnodup := keepOnly_valueIds (p := p).nodup hf.values
  rcases List.mem_append.mp (mem_of_lookup hd) with hparam | hblock
  · obtain ⟨q, hq, heq⟩ := List.mem_map.mp hparam
    cases heq
    exact ⟨_, valueDefinition?_of_param hnodup (List.mem_map_of_mem (f := (·.value)) hq),
      fun _ _ _ _ _ ↦ rfl⟩
  obtain ⟨b, hb, hmem⟩ := List.mem_flatMap.mp hblock
  have hb' := keepOnly_block_mem (p := p) hb
  rcases List.mem_append.mp hmem with hparam | hresult
  · obtain ⟨q, hq, heq⟩ := List.mem_map.mp hparam
    cases heq
    exact ⟨_, valueDefinition?_of_blockParam hnodup hb' (List.mem_map_of_mem (f := (·.value)) hq),
      fun _ _ _ _ hreaches ↦ hreaches⟩
  · obtain ⟨⟨i, j⟩, hi, hmem⟩ := List.mem_flatMap.mp hresult
    obtain ⟨w, hw, heq⟩ := List.mem_map.mp hmem
    cases heq
    have hj := List.mk_mem_zipIdx_iff_getElem?.mp hi
    have hkept : p i = true := by
      by_contra hfalse
      exact h.defs b hb i (List.mem_of_getElem? hj) (Bool.eq_false_iff.mpr hfalse) _ hw hv
    refine ⟨_, valueDefinition?_of_result hnodup hb' (getElem?_filter_countP hj hkept) hw, ?_⟩
    intro dominators c hc index hreaches
    rw [ValueDefinition.reaches] at hreaches
    show (if b.id = c.id then decide (_ < c.placeIn p index) else dominators b.id c.id) = true
    by_cases hsame : b.id = c.id
    · obtain rfl := block_ext hf.blocks hb hc hsame
      rw [if_pos rfl, decide_eq_true_eq] at hreaches ⊢
      exact countP_take_lt hj hkept hreaches
    · rw [if_neg hsame] at hreaches ⊢
      exact hreaches

theorem keepOnly_useErrors (hf : f.Strict) (h : f.Sheds p live) (hv : live v) (hb : b ∈ f.blocks)
    {dominators : Dominators} {index : Nat}
    (huse : valueUseErrors f dominators b.id index v = []) :
    valueUseErrors (f.keepOnly p) dominators b.id (b.placeIn p index) v = [] := by
  unfold valueUseErrors at huse ⊢
  cases hd : f.valueDefinition? v with
  | none =>
      rw [hd] at huse
      cases huse
  | some d =>
      obtain ⟨d', hd', hreaches⟩ := keepOnly_definition hf h hv hd
      rw [hd] at huse
      rw [hd']
      dsimp only at huse ⊢
      split at huse
      · rename_i hd
        exact if_pos (hreaches _ _ hb _ hd)
      · cases huse

/-! ## The checks of values -/

/-- A required guard stays where it is required. -/
theorem keepOnly_next (h : f.Sheds p live) (hb : b ∈ f.blocks) {i next : KirInstruction} {j : Nat}
    (hi : b.instructions[j]? = some i) (hkept : p i = true)
    (hnext : b.instructions[j + 1]? = some next) {condition : ValueId}
    {failure : KirFailureKind} (hkind : next.kind = .guard condition failure) :
    (b.keepOnly p).instructions[b.placeIn p j + 1]? = some next := by
  have hp : p next = true := by
    by_contra hfalse
    exact h.guard b hb next (List.mem_of_getElem? hnext) (Bool.eq_false_iff.mpr hfalse) _ _ hkind
  have hplace := getElem?_filter_countP hnext hp
  rw [List.take_add_one, hi, List.countP_append] at hplace
  rwa [show (some i).toList.countP p = 1 from List.countP_cons_of_pos (l := []) hkept] at hplace

theorem keepOnly_typeErrors (hf : f.Strict) (h : f.Sheds p live) (hb : b ∈ f.blocks)
    {i : KirInstruction} {j : Nat} (hi : b.instructions[j]? = some i) (hkept : p i = true)
    (herrors : instructionTypeErrors f b i j = []) :
    instructionTypeErrors (f.keepOnly p) (b.keepOnly p) i (b.placeIn p j) = [] := by
  have huses := h.uses b hb i (List.mem_of_getElem? hi) hkept
  have htype : ∀ v ∈ i.uses, (f.keepOnly p).recordedType? v = f.recordedType? v := fun v hv ↦
    keepOnly_recordedType? hf.values h (huses v hv)
  obtain ⟨herrors, hguard⟩ := List.append_eq_nil_iff.mp herrors
  obtain ⟨hbinary, hrequired⟩ := List.append_eq_nil_iff.mp herrors
  refine List.append_eq_nil_iff.mpr ⟨List.append_eq_nil_iff.mpr ⟨?_, ?_⟩, ?_⟩
  · cases hkind : i.kind with
    | binary op left right semantics =>
        rw [hkind] at hbinary
        dsimp only at hbinary ⊢
        rwa [htype left (by simp [KirInstruction.uses, hkind]),
          htype right (by simp [KirInstruction.uses, hkind])]
    | _ => rfl
  · cases hguards : i.requiredGuard with
    | none => rfl
    | some required =>
        obtain ⟨condition, failure⟩ := required
        rw [hguards] at hrequired
        dsimp only at hrequired ⊢
        have hnext : (b.instructions[j + 1]?).any (·.kind = .guard condition failure) = true := by
          by_contra hfalse
          rw [if_neg hfalse] at hrequired
          split at hrequired <;> cases hrequired
        obtain ⟨next, hnext, hkind⟩ := (Option.any_eq_true _ _).mp hnext
        rw [keepOnly_next h hb hi hkept hnext (of_decide_eq_true hkind)]
        exact if_pos hkind
  · cases hkind : i.kind with
    | guard condition failure =>
        rw [hkind] at hguard
        dsimp only at hguard ⊢
        rwa [htype condition (by simp [KirInstruction.uses, hkind])]
    | _ => rfl

theorem keepOnly_reverse_find (target : BlockId) :
    (f.keepOnly p).blocks.reverse.find? (·.id = target) =
      (f.blocks.reverse.find? (·.id = target)).map (·.keepOnly p) := by
  rw [keepOnly, ← List.map_reverse, List.find?_map]
  rfl

theorem keepOnly_edgeErrors (hf : f.Strict) (h : f.Sheds p live) (hb : b ∈ f.blocks)
    {edge : KirEdge} (hedge : edge ∈ b.terminator.edges)
    (herrors : edgeValueErrors f b edge = []) :
    edgeValueErrors (f.keepOnly p) (b.keepOnly p) edge = [] := by
  unfold edgeValueErrors at herrors ⊢
  rw [keepOnly_reverse_find]
  cases hfind : f.blocks.reverse.find? (·.id = edge.target) with
  | none =>
      rw [hfind] at herrors
      cases herrors
  | some target =>
      rw [hfind] at herrors
      obtain ⟨hlength, htypes⟩ := List.append_eq_nil_iff.mp herrors
      refine List.append_eq_nil_iff.mpr ⟨hlength, List.flatMap_eq_nil_iff.mpr fun pair hpair ↦ ?_⟩
      obtain ⟨argument, param⟩ := pair
      have hlive : live argument := h.ends b hb _ (List.mem_append_right _
        (List.mem_flatMap.mpr ⟨edge, hedge, (List.of_mem_zip hpair).1⟩))
      have hbefore := List.flatMap_eq_nil_iff.mp htypes (argument, param) hpair
      dsimp only at hbefore ⊢
      rwa [keepOnly_recordedType? hf.values h hlive]

theorem keepOnly_terminatorErrors (hf : f.Strict) (h : f.Sheds p live) (hb : b ∈ f.blocks) :
    terminatorTypeErrors (f.keepOnly p) b.terminator = terminatorTypeErrors f b.terminator := by
  have hreturn : (f.keepOnly p).returnType = f.returnType := rfl
  have hends := h.ends b hb
  cases hterminator : b.terminator with
  | «return» value memory effectOrder =>
      cases value with
      | none => rfl
      | some v =>
          rw [hterminator] at hends
          rw [terminatorTypeErrors, terminatorTypeErrors, hreturn,
            keepOnly_recordedType? hf.values h (hends v (by simp [KirTerminator.uses]))]
  | jump edge => rfl
  | branch condition thenEdge elseEdge =>
      rw [hterminator] at hends
      rw [terminatorTypeErrors, terminatorTypeErrors,
        keepOnly_recordedType? hf.values h (hends condition (by simp [KirTerminator.uses]))]

theorem keepOnly_blockErrors (hf : f.Strict) (h : f.Sheds p live) (hb : b ∈ f.blocks)
    {dominators : Dominators} (herrors : blockValueErrors f dominators b = []) :
    blockValueErrors (f.keepOnly p) dominators (b.keepOnly p) = [] := by
  obtain ⟨herrors, hedges⟩ := List.append_eq_nil_iff.mp herrors
  obtain ⟨herrors, hterminator⟩ := List.append_eq_nil_iff.mp herrors
  obtain ⟨hinstructions, huses⟩ := List.append_eq_nil_iff.mp herrors
  refine List.append_eq_nil_iff.mpr ⟨List.append_eq_nil_iff.mpr
    ⟨List.append_eq_nil_iff.mpr ⟨?_, ?_⟩, ?_⟩, ?_⟩
  · refine List.flatMap_eq_nil_iff.mpr fun pair hmem ↦ ?_
    obtain ⟨j, hj, hkept, hplace⟩ :=
      exists_getElem?_of_filter (List.mem_zipIdx_iff_getElem?.mp hmem)
    obtain ⟨huse, htype⟩ := List.append_eq_nil_iff.mp
      (List.flatMap_eq_nil_iff.mp hinstructions (pair.1, j)
        (List.mk_mem_zipIdx_iff_getElem?.mpr hj))
    dsimp only
    rw [← hplace]
    refine List.append_eq_nil_iff.mpr ⟨List.flatMap_eq_nil_iff.mpr fun v hv ↦ ?_,
      keepOnly_typeErrors hf h hb hj hkept htype⟩
    exact keepOnly_useErrors hf h (h.uses b hb _ (List.mem_of_getElem? hj) hkept v hv) hb
      (List.flatMap_eq_nil_iff.mp huse v hv)
  · refine List.flatMap_eq_nil_iff.mpr fun v hv ↦ ?_
    rw [← KirBlock.placeIn_length]
    exact keepOnly_useErrors hf h (h.ends b hb v hv) hb (List.flatMap_eq_nil_iff.mp huses v hv)
  · exact (keepOnly_terminatorErrors hf h hb).trans hterminator
  · exact List.flatMap_eq_nil_iff.mpr fun edge hedge ↦
      keepOnly_edgeErrors hf h hb hedge (List.flatMap_eq_nil_iff.mp hedges edge hedge)

/-! ## The checks of memory -/

theorem keepOnly_memoryVersions (h : f.Sheds p live) :
    (f.keepOnly p).memoryVersions = f.memoryVersions := by
  rw [memoryVersions, memoryVersions, keepOnly, List.flatMap_map]
  refine congrArg₂ (· ++ ·) rfl (List.flatMap_congr fun b hb ↦ congrArg₂ (· ++ ·) rfl ?_)
  rw [KirBlock.keepOnly, List.filterMap_filter]
  refine List.filterMap_congr fun i hi ↦ ?_
  cases hkept : p i with
  | true => rw [if_pos rfl]
  | false => rw [if_neg (by simp), h.memory b hb i hi hkept, Option.bind_none]

/-- The definition of a version still comes before the places it came before. -/
theorem keepOnly_memoryDefinitions (hblocks : f.blockIds.Nodup) (h : f.Sheds p live)
    {entry : MemoryDefinitionEntry} (hentry : entry ∈ f.memoryDefinitions) :
    ∃ d, ⟨entry.version, entry.region, d⟩ ∈ (f.keepOnly p).memoryDefinitions ∧
      ∀ dominators, ∀ c ∈ f.blocks, ∀ index,
        entry.definition.reaches dominators c.id index = true →
          d.reaches dominators c.id (c.placeIn p index) = true := by
  rcases List.mem_append.mp hentry with hinitial | hblock
  · obtain ⟨initial, hmem, rfl⟩ := List.mem_map.mp hinitial
    exact ⟨_, List.mem_append_left _ hinitial, fun _ _ _ _ _ ↦ rfl⟩
  obtain ⟨b, hb, hmem⟩ := List.mem_flatMap.mp hblock
  have hb' := keepOnly_block_mem (p := p) hb
  rcases List.mem_append.mp hmem with hparam | houtput
  · obtain ⟨param, hparam', rfl⟩ := List.mem_map.mp hparam
    exact ⟨_, List.mem_append_right _
      (List.mem_flatMap.mpr ⟨_, hb', List.mem_append_left _ hparam⟩), fun _ _ _ _ h ↦ h⟩
  · obtain ⟨⟨i, j⟩, hi, heq⟩ := List.mem_filterMap.mp houtput
    obtain ⟨memory, hmemory, heq⟩ := Option.bind_eq_some_iff.mp heq
    obtain ⟨output, hset, rfl⟩ := Option.map_eq_some_iff.mp heq
    have hj := List.mk_mem_zipIdx_iff_getElem?.mp hi
    have hkept : p i = true := by
      by_contra hfalse
      have hnone := h.memory b hb i (List.mem_of_getElem? hj) (Bool.eq_false_iff.mpr hfalse)
      cases hnone.symm.trans hmemory
    refine ⟨_, List.mem_append_right _ (List.mem_flatMap.mpr ⟨_, hb', List.mem_append_right _
      (mem_outputEntries (getElem?_filter_countP hj hkept) hmemory hset)⟩), ?_⟩
    intro dominators c hc index hreaches
    rw [MemoryDefinition.reaches] at hreaches
    show (if b.id = c.id then decide (_ < c.placeIn p index) else dominators b.id c.id) = true
    by_cases hsame : b.id = c.id
    · obtain rfl := block_ext hblocks hb hc hsame
      rw [if_pos rfl, decide_eq_true_eq] at hreaches ⊢
      exact countP_take_lt hj hkept hreaches
    · rw [if_neg hsame] at hreaches ⊢
      exact hreaches

variable {dominators : Dominators} {version : MemoryVersionId}

theorem keepOnly_memoryUseErrors (hblocks : f.blockIds.Nodup) (hversions : f.memoryVersions.Nodup)
    (h : f.Sheds p live) (hb : b ∈ f.blocks) {index : Nat}
    (huse : memoryUseErrors f dominators b.id index version = []) :
    memoryUseErrors (f.keepOnly p) dominators b.id (b.placeIn p index) version = [] := by
  unfold memoryUseErrors at huse ⊢
  cases hfound : f.memoryDefinitions.find? (·.version = version) with
  | none =>
      rw [memoryDefinition?, hfound] at huse
      cases huse
  | some entry =>
      obtain rfl : entry.version = version := by simpa using List.find?_some hfound
      obtain ⟨d, hmem, hreaches⟩ :=
        keepOnly_memoryDefinitions hblocks h (List.mem_of_find?_eq_some hfound)
      rw [memoryDefinition?, hfound, Option.map_some] at huse
      rw [memoryDefinition?_of_mem ((keepOnly_memoryVersions h).symm ▸ hversions) hmem]
      dsimp only at huse ⊢
      split at huse
      · rename_i hd
        exact if_pos (hreaches _ _ hb _ hd)
      · cases huse

theorem keepOnly_partitionErrors (hblocks : f.blockIds.Nodup) (hversions : f.memoryVersions.Nodup)
    (h : f.Sheds p live) {region : MemoryRegionId} {message : String}
    (herrors : partitionErrors f version region message = []) :
    partitionErrors (f.keepOnly p) version region message = [] := by
  unfold partitionErrors at herrors ⊢
  refine if_pos ?_
  have hregion : f.versionRegion? version = some region := by
    by_contra hne
    rw [if_neg hne] at herrors
    cases herrors
  obtain ⟨entry, hfound, rfl⟩ := Option.map_eq_some_iff.mp hregion
  obtain rfl : entry.version = version := by simpa using List.find?_some hfound
  obtain ⟨d, hmem, -⟩ := keepOnly_memoryDefinitions hblocks h
    (List.mem_reverse.mp (List.mem_of_find?_eq_some hfound))
  have hfound' := versionRegion?_of_mem ((keepOnly_memoryVersions h).symm ▸ hversions) hmem
  exact hfound'

theorem keepOnly_blockMemoryErrors (hblocks : f.blockIds.Nodup)
    (hversions : f.memoryVersions.Nodup) (h : f.Sheds p live) (hb : b ∈ f.blocks)
    (herrors : blockMemoryErrors f dominators b = []) :
    blockMemoryErrors (f.keepOnly p) dominators (b.keepOnly p) = [] := by
  obtain ⟨herrors, hreturn⟩ := List.append_eq_nil_iff.mp herrors
  obtain ⟨hinstructions, hedges⟩ := List.append_eq_nil_iff.mp herrors
  have hend : ∀ version, memoryUseErrors f dominators b.id b.instructions.length version = [] →
      memoryUseErrors (f.keepOnly p) dominators b.id (b.keepOnly p).instructions.length version =
        [] := fun version huse ↦
    KirBlock.placeIn_length (p := p) ▸ keepOnly_memoryUseErrors hblocks hversions h hb huse
  refine List.append_eq_nil_iff.mpr ⟨List.append_eq_nil_iff.mpr ⟨?_, ?_⟩, ?_⟩
  · refine List.flatMap_eq_nil_iff.mpr fun pair hmem ↦ ?_
    obtain ⟨j, hj, hkept, hplace⟩ :=
      exists_getElem?_of_filter (List.mem_zipIdx_iff_getElem?.mp hmem)
    obtain ⟨hrecord, hmemory⟩ := List.append_eq_nil_iff.mp
      (List.flatMap_eq_nil_iff.mp hinstructions (pair.1, j)
        (List.mk_mem_zipIdx_iff_getElem?.mpr hj))
    dsimp only
    rw [← hplace]
    refine List.append_eq_nil_iff.mpr ⟨hrecord, ?_⟩
    cases haccess : pair.1.memory with
    | none => rfl
    | some memory =>
        rw [haccess] at hmemory
        obtain ⟨huse, hpartition⟩ := List.append_eq_nil_iff.mp hmemory
        exact List.append_eq_nil_iff.mpr ⟨keepOnly_memoryUseErrors hblocks hversions h hb huse,
          keepOnly_partitionErrors hblocks hversions h hpartition⟩
  · refine List.flatMap_eq_nil_iff.mpr fun edge hedge ↦ ?_
    obtain ⟨htarget, huses⟩ := List.append_eq_nil_iff.mp
      (List.flatMap_eq_nil_iff.mp hedges edge hedge)
    refine List.append_eq_nil_iff.mpr ⟨?_, List.flatMap_eq_nil_iff.mpr fun version hversion ↦
      hend version (List.flatMap_eq_nil_iff.mp huses version hversion)⟩
    rw [keepOnly_reverse_find]
    cases hfind : f.blocks.reverse.find? (·.id = edge.target) with
    | none =>
        rw [hfind] at htarget
        cases htarget
    | some target =>
        rw [hfind] at htarget
        obtain ⟨hlength, hpartitions⟩ := List.append_eq_nil_iff.mp htarget
        exact List.append_eq_nil_iff.mpr ⟨hlength, List.flatMap_eq_nil_iff.mpr fun pair hpair ↦
          keepOnly_partitionErrors hblocks hversions h
            (List.flatMap_eq_nil_iff.mp hpartitions pair hpair)⟩
  · show returnMemoryErrors _ _ _ b.terminator = []
    cases hterminator : b.terminator with
    | jump | branch => rfl
    | «return» value memory effectOrder =>
        rw [hterminator] at hreturn
        refine List.flatMap_eq_nil_iff.mpr fun pair hpair ↦ ?_
        obtain ⟨huse, hpartition⟩ := List.append_eq_nil_iff.mp
          (List.flatMap_eq_nil_iff.mp hreturn pair hpair)
        exact List.append_eq_nil_iff.mpr ⟨hend _ huse,
          keepOnly_partitionErrors hblocks hversions h hpartition⟩

end KirFunction

/-! ## Typing -/

section Typing

variable {m : KirModule} {types types' : ValueId → Option MirType} {structs : List MirStruct}

theorem KirPlace.wellTyped_congr {place : KirPlace} (h : ∀ v ∈ place.uses, types v = types' v) :
    place.wellTyped structs types = place.wellTyped structs types' := by
  induction place with
  | value v => rw [wellTyped, wellTyped, h v (by simp [uses])]
  | deref pointer => rw [wellTyped, wellTyped, h pointer (by simp [uses])]
  | index base i _ _ ih =>
      rw [wellTyped, wellTyped, ih fun v hv ↦ h v (by simp [uses, hv]), h i (by simp [uses])]
  | sliceIndex slice i =>
      rw [wellTyped, wellTyped, h slice (by simp [uses]), h i (by simp [uses])]
  | field base name _ _ ih => rw [wellTyped, wellTyped, ih h]

/-- The typing of an instruction asks for the types of its operands only. -/
theorem KirInstruction.wellTyped_congr {i : KirInstruction}
    (h : ∀ v ∈ i.uses, types v = types' v) :
    i.wellTyped structs types m = i.wellTyped structs types' m := by
  unfold uses at h
  unfold wellTyped
  generalize i.kind = kind at h ⊢
  generalize i.resultTypes = results
  split
  case h_5 v _ => rw [h v (by simp)]
  case h_6 left right _ _ _ => rw [h left (by simp), h right (by simp)]
  case h_7 v _ _ _ => rw [h v (by simp)]
  case h_8 v _ _ => rw [h v (by simp)]
  case h_9 left right _ => rw [h left (by simp), h right (by simp)]
  case h_10 v _ => rw [h v (by simp)]
  case h_11 v _ => rw [h v (by simp)]
  case h_12 kind args _ =>
      have hargs : args.map types = args.map types' := List.map_congr_left h
      unfold KirCheckConditionKind.wellTyped
      rw [hargs]
  case h_13 condition _ => rw [h condition (by simp)]
  case h_14 place _ => rw [KirPlace.wellTyped_congr h]
  case h_15 place _ => rw [KirPlace.wellTyped_congr h]
  case h_16 place v =>
      rw [h v (by simp), KirPlace.wellTyped_congr fun w hw ↦ h w (List.mem_append_left _ hw)]
  case h_17 data len _ => rw [h data (by simp), h len (by simp)]
  case h_18 slice _ => rw [h slice (by simp)]
  case h_19 slice _ => rw [h slice (by simp)]
  case h_20 slice start stop _ => rw [h slice (by simp), h start (by simp), h stop (by simp)]
  case h_21 _ name args =>
      have hargs : args.map types = args.map types' := List.map_congr_left h
      rw [callWellTyped, callWellTyped, hargs]
  all_goals rfl

theorem callWellTyped_mapFunctions {T : KirFunction → KirFunction}
    (hname : ∀ f, (T f).name = f.name) (hparams : ∀ f, (T f).params = f.params)
    (htype : ∀ f, (T f).returnType = f.returnType) (name : String) (args : List ValueId)
    (results : List KirValueType) :
    callWellTyped types (m.mapFunctions T) name args results =
      callWellTyped types m name args results := by
  have hfound : (m.mapFunctions T).function? name = (m.function? name).map T := by
    rw [KirModule.function?, KirModule.mapFunctions, List.find?_map, KirModule.function?]
    congr 1
    simp only [Function.comp_def, hname]
  rw [callWellTyped, callWellTyped, hfound]
  cases m.function? name with
  | none => rfl
  | some f =>
      rw [Option.map_some]
      dsimp only
      rw [hparams, htype]

theorem wellTyped_mapFunctions {T : KirFunction → KirFunction} (hname : ∀ f, (T f).name = f.name)
    (hparams : ∀ f, (T f).params = f.params) (htype : ∀ f, (T f).returnType = f.returnType)
    (i : KirInstruction) :
    i.wellTyped structs types (m.mapFunctions T) = i.wellTyped structs types m := by
  unfold KirInstruction.wellTyped
  simp only [callWellTyped_mapFunctions hname hparams htype]

variable {f : KirFunction} {p : KirInstruction → Bool} {live : ValueId → Prop}

theorem guardsFollow_cons {i : KirInstruction} {l : List KirInstruction} :
    guardsFollow (i :: l) = true ↔ guardsFollow l = true ∧
      ∀ flag failure, i.requiredGuard = some (flag, failure) →
        ∃ next rest, l = next :: rest ∧ next.kind = .guard flag failure := by
  cases hrequired : i.requiredGuard with
  | none =>
      cases l with
      | nil => simp [guardsFollow, hrequired]
      | cons next rest => simp [guardsFollow, hrequired]
  | some required =>
      obtain ⟨flag, failure⟩ := required
      cases l with
      | nil => simp [guardsFollow, hrequired]
      | cons next rest =>
          simp only [guardsFollow, hrequired, Bool.and_eq_true, decide_eq_true_eq]
          constructor
          · rintro ⟨hnext, hrest⟩
            refine ⟨hrest, fun flag failure heq ↦ ⟨next, rest, rfl, ?_⟩⟩
            cases heq
            exact hnext
          · rintro ⟨hrest, hnext⟩
            obtain ⟨_, _, heq, hkind⟩ := hnext flag failure rfl
            cases heq
            exact ⟨hkind, hrest⟩

theorem guardsFollow_filter {l : List KirInstruction} (hl : guardsFollow l = true)
    (hguard : ∀ i ∈ l, p i = false → ∀ c k, i.kind ≠ .guard c k) :
    guardsFollow (l.filter p) = true := by
  induction l with
  | nil => rfl
  | cons i l ih =>
      obtain ⟨htail, hnext⟩ := guardsFollow_cons.mp hl
      have hrest := ih htail fun k hk ↦ hguard k (List.mem_cons_of_mem _ hk)
      cases hi : p i with
      | false => rwa [List.filter_cons_of_neg (by simp [hi])]
      | true =>
          rw [List.filter_cons_of_pos hi]
          refine guardsFollow_cons.mpr ⟨hrest, fun flag failure hrequired ↦ ?_⟩
          obtain ⟨next, rest, rfl, hkind⟩ := hnext flag failure hrequired
          have hkept : p next = true := by
            by_contra hfalse
            exact hguard next (by simp) (Bool.eq_false_iff.mpr hfalse) _ _ hkind
          exact ⟨next, rest.filter p, List.filter_cons_of_pos hkept, hkind⟩

theorem edgeWellTyped_keepOnly (hf : f.Strict) (h : f.Sheds p live) {edge : KirEdge}
    (hargs : ∀ v ∈ edge.args, live v) (hedge : f.edgeWellTyped edge = true) :
    (f.keepOnly p).edgeWellTyped edge = true := by
  unfold KirFunction.edgeWellTyped at hedge ⊢
  rw [KirFunction.keepOnly_block?]
  cases hblock : f.block? edge.target with
  | none =>
      rw [hblock] at hedge
      cases hedge
  | some target =>
      rw [hblock] at hedge
      rw [Option.map_some]
      dsimp only at hedge ⊢
      rwa [List.map_congr_left fun v hv ↦
        KirFunction.keepOnly_scalarType? hf.values h (hargs v hv)]

theorem terminatorWellTyped_keepOnly (hf : f.Strict) (h : f.Sheds p live)
    {terminator : KirTerminator} (huses : ∀ v ∈ terminator.uses, live v)
    (hterminator : f.terminatorWellTyped terminator = true) :
    (f.keepOnly p).terminatorWellTyped terminator = true := by
  have htype : ∀ v ∈ terminator.uses, (f.keepOnly p).scalarType? v = f.scalarType? v :=
    fun v hv ↦ KirFunction.keepOnly_scalarType? hf.values h (huses v hv)
  cases terminator with
  | «return» value memory effectOrder =>
      cases value with
      | none => exact hterminator
      | some v =>
          rw [KirFunction.terminatorWellTyped, htype v (by simp [KirTerminator.uses])]
          exact hterminator
  | jump edge =>
      exact edgeWellTyped_keepOnly hf h
        (fun v hv ↦ huses v (by simpa [KirTerminator.uses, KirTerminator.edges] using hv))
        hterminator
  | branch condition thenEdge elseEdge =>
      simp only [KirFunction.terminatorWellTyped, Bool.and_eq_true] at hterminator
      obtain ⟨⟨hcondition, hthen⟩, helse⟩ := hterminator
      simp only [KirFunction.terminatorWellTyped, Bool.and_eq_true]
      rw [htype condition (by simp [KirTerminator.uses])]
      exact ⟨⟨hcondition, edgeWellTyped_keepOnly hf h (fun v hv ↦ huses v (by
        simp [KirTerminator.uses, KirTerminator.edges, hv])) hthen⟩,
        edgeWellTyped_keepOnly hf h (fun v hv ↦ huses v (by
          simp [KirTerminator.uses, KirTerminator.edges, hv])) helse⟩

theorem wellTyped_of_sheds (hf : f.Strict) (h : f.Sheds p live) (htyped : f.WellTyped m) :
    (f.keepOnly p).WellTyped (m.mapFunctions (·.keepOnly p)) where
  values := KirFunction.keepOnly_valueIds.nodup hf.values
  blockIds := by
    have hids : (f.keepOnly p).blocks.map (·.id) = f.blocks.map (·.id) :=
      KirFunction.keepOnly_blockIds
    rw [hids]
    exact htyped.blockIds
  instructionIds := by
    rw [KirFunction.keepOnly_instructions]
    exact htyped.instructionIds.sublist (List.filter_sublist.map _)
  guards := by
    intro b' hb'
    obtain ⟨b, hb, rfl⟩ := KirFunction.mem_keepOnly_blocks hb'
    exact guardsFollow_filter (htyped.guards b hb) (h.guard b hb)
  typed := by
    intro b' hb'
    obtain ⟨b, hb, rfl⟩ := KirFunction.mem_keepOnly_blocks hb'
    obtain ⟨hall, hterminator⟩ := Bool.and_eq_true_iff.mp (htyped.typed b hb)
    refine Bool.and_eq_true_iff.mpr ⟨List.all_eq_true.mpr fun i hi ↦ ?_,
      terminatorWellTyped_keepOnly hf h (h.ends b hb) hterminator⟩
    obtain ⟨hmem, hkept⟩ := List.mem_filter.mp hi
    rw [wellTyped_mapFunctions (T := (·.keepOnly p)) (fun _ ↦ rfl) (fun _ ↦ rfl) fun _ ↦ rfl,
      KirInstruction.wellTyped_congr fun v hv ↦
      KirFunction.keepOnly_scalarType? hf.values h (h.uses b hb i hmem hkept v hv)]
    exact List.all_eq_true.mp hall i hmem

end Typing

/-! ## The module -/

variable {m : KirModule} {p : KirInstruction → Bool} {live : ValueId → Prop}

theorem keepOnly_valueErrors (h : ∀ f ∈ m.functions, f.Sheds p live) (hm : m.valueErrors = []) :
    (m.mapFunctions (·.keepOnly p)).valueErrors = [] := by
  obtain ⟨hids, hfunctions⟩ := List.append_eq_nil_iff.mp hm
  obtain ⟨hids, hinstructions⟩ := List.append_eq_nil_iff.mp hids
  obtain ⟨hvalues, hblocks⟩ := List.append_eq_nil_iff.mp hids
  have hsame : (m.mapFunctions (·.keepOnly p)).functions = m.functions.map (·.keepOnly p) := rfl
  refine List.append_eq_nil_iff.mpr ⟨List.append_eq_nil_iff.mpr
    ⟨List.append_eq_nil_iff.mpr ⟨?_, ?_⟩, ?_⟩, ?_⟩
  · refine duplicateErrors_eq_nil.mpr ⟨(duplicateErrors_eq_nil.mp hvalues).1.sublist ?_, by simp⟩
    rw [hsame, List.flatMap_map]
    exact List.Sublist.flatMap_right _ fun f _ ↦ KirFunction.keepOnly_valueIds
  · rw [hsame, List.flatMap_map]
    simpa only [KirFunction.keepOnly_blockIds] using hblocks
  · refine duplicateErrors_eq_nil.mpr
      ⟨(duplicateErrors_eq_nil.mp hinstructions).1.sublist ?_, by simp⟩
    rw [hsame, List.flatMap_map]
    refine List.Sublist.flatMap_right _ fun f _ ↦ ?_
    rw [KirFunction.keepOnly_instructions]
    exact List.filter_sublist.map _
  · refine List.flatMap_eq_nil_iff.mpr fun f' hf' ↦ ?_
    obtain ⟨f, hf, rfl⟩ := List.mem_map.mp hf'
    rw [KirFunction.keepOnly_dominators]
    refine List.flatMap_eq_nil_iff.mpr fun b' hb' ↦ ?_
    obtain ⟨b, hb, rfl⟩ := KirFunction.mem_keepOnly_blocks hb'
    exact KirFunction.keepOnly_blockErrors (KirFunction.strict_of_errors hm hf) (h f hf) hb
      (List.flatMap_eq_nil_iff.mp (List.flatMap_eq_nil_iff.mp hfunctions f hf) b hb)

theorem keepOnly_memoryErrors (h : ∀ f ∈ m.functions, f.Sheds p live)
    (hm : m.memoryErrors KirFunction.computeKirDominators = []) :
    (m.mapFunctions (·.keepOnly p)).memoryErrors KirFunction.computeKirDominators = [] := by
  obtain ⟨hids, hfunctions⟩ := List.append_eq_nil_iff.mp hm
  obtain ⟨hids, hversions⟩ := List.append_eq_nil_iff.mp hids
  obtain ⟨hregions, hblocks⟩ := List.append_eq_nil_iff.mp hids
  have hsame : (m.mapFunctions (·.keepOnly p)).functions = m.functions.map (·.keepOnly p) := rfl
  refine List.append_eq_nil_iff.mpr ⟨List.append_eq_nil_iff.mpr
    ⟨List.append_eq_nil_iff.mpr ⟨?_, ?_⟩, ?_⟩, ?_⟩
  · rw [hsame, List.flatMap_map]
    exact hregions
  · rw [hsame, List.flatMap_map]
    have hblockIds : ∀ f : KirFunction, (f.keepOnly p).blocks.map (·.id) =
        f.blocks.map (·.id) := fun f ↦ KirFunction.keepOnly_blockIds
    simpa only [hblockIds] using hblocks
  · rw [hsame, List.flatMap_map,
      List.flatMap_congr fun f hf ↦ KirFunction.keepOnly_memoryVersions (h f hf)]
    exact hversions
  · refine List.flatMap_eq_nil_iff.mpr fun f' hf' ↦ ?_
    obtain ⟨f, hf, rfl⟩ := List.mem_map.mp hf'
    obtain ⟨hregion, hchecked⟩ := List.append_eq_nil_iff.mp
      (List.flatMap_eq_nil_iff.mp hfunctions f hf)
    refine List.append_eq_nil_iff.mpr ⟨hregion, List.flatMap_eq_nil_iff.mpr fun b' hb' ↦ ?_⟩
    obtain ⟨b, hb, rfl⟩ := KirFunction.mem_keepOnly_blocks hb'
    rw [KirFunction.keepOnly_dominators]
    exact KirFunction.keepOnly_blockMemoryErrors
      ((List.nodup_flatMap.mp (duplicateErrors_eq_nil.mp hblocks).1).1 f hf)
      ((List.nodup_flatMap.mp (duplicateErrors_eq_nil.mp hversions).1).1 f hf) (h f hf) hb
      (List.flatMap_eq_nil_iff.mp hchecked b hb)

/-- The module that is left is verified. -/
theorem KirModule.Verified.keepOnly (hm : m.Verified) (h : ∀ f ∈ m.functions, f.Sheds p live) :
    (m.mapFunctions (·.keepOnly p)).Verified where
  values := keepOnly_valueErrors h hm.values
  memory := keepOnly_memoryErrors h hm.memory
  functionIds := by
    rw [KirModule.mapFunctions, List.map_map]
    exact hm.functionIds
  typed := by
    constructor
    · rw [KirModule.mapFunctions, List.map_map]
      exact hm.typed.names
    · intro f' hf'
      obtain ⟨f, hf, rfl⟩ := List.mem_map.mp hf'
      exact wellTyped_of_sheds (KirFunction.strict_of_errors hm.values hf) (h f hf)
        (hm.typed.functions f hf)

end CalcKernel
