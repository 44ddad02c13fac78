import CalcKernel.Optimizer.InductionRuns

/-!
# A simplified module is valid

The copies take the place of the parameters they replace: the values and their types are the
same, every definition still comes before its uses, and all the rest of a block is moved on
by the number of its copies.  So the checks that passed before pass again.
-/

namespace CalcKernel

open Lib

/-! ## What stays the same -/

section Same

variable {prepared : List PreparedCopy} {f : KirFunction} {b : KirBlock}

theorem KirTerminator.repair_edges {function : FunctionId} {terminator : KirTerminator} :
    (terminator.repair prepared function).edges =
      terminator.edges.map (repairEdge prepared function) := by
  cases terminator <;> rfl

theorem KirTerminator.repair_successors {function : FunctionId} {terminator : KirTerminator} :
    (terminator.repair prepared function).successors = terminator.successors := by
  rw [successors, successors, repair_edges, List.map_map]
  rfl

/-- A repaired terminator uses no more. -/
theorem KirTerminator.repair_uses {function : FunctionId} {terminator : KirTerminator}
    {v : ValueId} (h : v ∈ (terminator.repair prepared function).uses) : v ∈ terminator.uses := by
  rcases List.mem_append.mp h with hown | hargs
  · refine List.mem_append_left _ ?_
    cases terminator <;> exact hown
  · refine List.mem_append_right _ ?_
    rw [repair_edges] at hargs
    obtain ⟨_, hedge, hv⟩ := List.mem_flatMap.mp hargs
    obtain ⟨edge, hmem, rfl⟩ := List.mem_map.mp hedge
    exact List.mem_flatMap.mpr ⟨edge, hmem, (eraseAt_sublist _ _).subset hv⟩

namespace KirFunction

theorem simplify_blockIds : (f.simplify prepared).blockIds = f.blockIds := by
  rw [blockIds, blockIds, simplify, List.map_map]
  rfl

theorem simplify_dominators :
    (f.simplify prepared).computeKirDominators = f.computeKirDominators := by
  refine computeKirDominators_congr simplify_blockIds (funext fun target ↦ ?_)
  rw [flowPredecessors, flowPredecessors, simplify, List.flatMap_map]
  refine List.flatMap_congr fun b _ ↦ ?_
  simp only [KirBlock.simplify, KirTerminator.repair_successors]

theorem mem_simplify_blocks {b' : KirBlock} (h : b' ∈ (f.simplify prepared).blocks) :
    ∃ b ∈ f.blocks, b' = b.simplify prepared f.id := by
  obtain ⟨b, hb, rfl⟩ := List.mem_map.mp h
  exact ⟨b, hb, rfl⟩

end KirFunction

end Same

/-! ## Values and types -/

namespace BlockCopies

variable {f : KirFunction} {b : KirBlock} {drop : Nat → Bool} {copies : List KirInstruction}

theorem results_of_mem (h : BlockCopies f b drop copies) {i : KirInstruction} (hi : i ∈ copies) :
    ∃ (k : Nat) (param : KirBlockParam), drop k = true ∧ b.params[k]? = some param ∧
      i.results = [⟨param.value, param.typeNode⟩] := by
  obtain ⟨k, param, source, hk, hparam, hcopy, -⟩ := h.copy i hi
  exact ⟨k, param, hk, hparam, by rw [hcopy]⟩

/-- The types of the kept parameters and the copies are those of all parameters. -/
theorem valueTypes_perm (h : BlockCopies f b drop copies)
    (hparams : (b.params.map (·.value)).Nodup) :
    ((eraseAt drop b.params).map (fun p ↦ (p.value, p.typeNode)) ++
      copies.flatMap fun i ↦ i.results.map fun r ↦ (r.value, r.typeNode)).Perm
        (b.params.map fun p ↦ (p.value, p.typeNode)) := by
  have hkeys : ∀ l : List KirInstruction, (∀ i ∈ l, i ∈ copies) →
      (l.flatMap fun i ↦ i.results.map fun r ↦ (r.value, r.typeNode)).map Prod.fst =
        l.map (·.firstResult) := by
    intro l hl
    induction l with
    | nil => rfl
    | cons i l ih =>
        obtain ⟨k, param, -, -, hresults⟩ := h.results_of_mem (hl i List.mem_cons_self)
        rw [List.flatMap_cons, List.map_append, List.map_cons,
          ih fun k hk ↦ hl k (List.mem_cons_of_mem _ hk), KirInstruction.firstResult,
          KirInstruction.defs, hresults]
        rfl
  rw [← eraseAt_map]
  refine eraseAt_append_perm ?_ ?_ ?_
  · refine List.Nodup.of_map Prod.fst ?_
    rwa [List.map_map]
  · refine List.Nodup.of_map Prod.fst ?_
    rw [hkeys copies fun i hi ↦ hi]
    exact List.pairwise_map.mpr (h.sorted.imp fun hlt ↦ hlt.ne)
  · rintro ⟨v, type⟩
    simp only [List.mem_flatMap, List.getElem?_map, Option.map_eq_some_iff]
    constructor
    · rintro ⟨i, hi, hmem⟩
      obtain ⟨k, param, hk, hparam, hresults⟩ := h.results_of_mem hi
      rw [hresults] at hmem
      exact ⟨k, hk, param, hparam, (List.mem_singleton.mp hmem).symm⟩
    · rintro ⟨k, hk, param, hparam, heq⟩
      obtain ⟨i, hi, hresults⟩ := h.dropped k param hk hparam
      refine ⟨i, hi, ?_⟩
      rw [hresults, ← heq]
      exact List.mem_singleton_self _

end BlockCopies

section Values

variable {m : KirModule} {prepared : List PreparedCopy} {f : KirFunction} {b : KirBlock}
variable {v : ValueId}

/-- The copies of every block stand for the parameters it loses. -/
def KirFunction.CopiedBy (f : KirFunction) (prepared : List PreparedCopy) : Prop :=
  ∀ b ∈ f.blocks, BlockCopies f b (droppedAt prepared f.id b.id) (copiesAt prepared f.id b.id)

namespace KirFunction

theorem simplify_valueTypes (hf : f.Strict) (h : f.CopiedBy prepared) :
    (f.simplify prepared).valueTypes.Perm f.valueTypes := by
  refine List.Perm.append_left _ ?_
  rw [simplify, List.flatMap_map]
  refine List.Perm.flatMap_left _ fun b hb ↦ ?_
  rw [KirBlock.valueTypes, KirBlock.valueTypes, KirBlock.simplify, List.flatMap_append,
    ← List.append_assoc]
  exact ((h b hb).valueTypes_perm (params_nodup hf.values hb)).append_right _

theorem simplify_valueIds (hf : f.Strict) (h : f.CopiedBy prepared) :
    (f.simplify prepared).valueIds.Perm f.valueIds := by
  rw [← valueTypes_keys, ← valueTypes_keys]
  exact (simplify_valueTypes hf h).map Prod.fst

theorem simplify_values_nodup (hf : f.Strict) (h : f.CopiedBy prepared) :
    (f.simplify prepared).valueIds.Nodup :=
  (simplify_valueIds hf h).nodup_iff.mpr hf.values

theorem simplify_valueType? (hf : f.Strict) (h : f.CopiedBy prepared) :
    (f.simplify prepared).valueType? = f.valueType? := by
  funext v
  have hperm := simplify_valueTypes hf h
  have hnodup := simplify_values_nodup hf h
  cases hv : f.valueType? v with
  | some type => exact valueType?_of_mem hnodup (hperm.mem_iff.mpr (mem_of_lookup hv))
  | none =>
      cases hv' : (f.simplify prepared).valueType? v with
      | none => rfl
      | some type =>
          rw [valueType?_of_mem hf.values (hperm.mem_iff.mp (mem_of_lookup hv'))] at hv
          cases hv

theorem simplify_recordedType? (hf : f.Strict) (h : f.CopiedBy prepared) :
    (f.simplify prepared).recordedType? = f.recordedType? := by
  funext v
  rw [recordedType?_eq (simplify_values_nodup hf h), recordedType?_eq hf.values,
    simplify_valueType? hf h]

theorem simplify_scalarType? (hf : f.Strict) (h : f.CopiedBy prepared) :
    (f.simplify prepared).scalarType? = f.scalarType? := by
  funext v
  rw [scalarType?, scalarType?, simplify_valueType? hf h]

/-! ## Definitions and uses -/

/-- The number of the copies of a block. -/
abbrev moved (f : KirFunction) (prepared : List PreparedCopy) (block : BlockId) : Nat :=
  (copiesAt prepared f.id block).length

theorem simplify_block_mem (hb : b ∈ f.blocks) :
    b.simplify prepared f.id ∈ (f.simplify prepared).blocks :=
  List.mem_map_of_mem hb

theorem simplify_instruction_copy {k : Nat} {i : KirInstruction}
    (hi : (copiesAt prepared f.id b.id)[k]? = some i) :
    (b.simplify prepared f.id).instructions[k]? = some i := by
  rw [KirBlock.simplify, List.getElem?_append_left (List.getElem?_eq_some_iff.mp hi).1]
  exact hi

theorem simplify_instruction_moved (j : Nat) :
    (b.simplify prepared f.id).instructions[j + f.moved prepared b.id]? = b.instructions[j]? := by
  rw [KirBlock.simplify, List.getElem?_append_right (Nat.le_add_left _ _), Nat.add_sub_cancel]

/-- A parameter of a block is still one, or the result of a copy. -/
theorem simplify_param (h : f.CopiedBy prepared) (hb : b ∈ f.blocks)
    (hv : v ∈ b.params.map (·.value)) :
    v ∈ (b.simplify prepared f.id).params.map (·.value) ∨
      ∃ (k : Nat) (i : KirInstruction), (copiesAt prepared f.id b.id)[k]? = some i ∧ v ∈ i.defs ∧
        i.firstResult = v := by
  obtain ⟨param, hparam, rfl⟩ := List.mem_map.mp hv
  obtain ⟨k, hk⟩ := List.mem_iff_getElem?.mp hparam
  cases hdrop : droppedAt prepared f.id b.id k
  · exact .inl (List.mem_map_of_mem (mem_eraseAt.mpr ⟨k, hdrop, hk⟩))
  · obtain ⟨i, hi, hresults⟩ := (h b hb).dropped k param hdrop hk
    obtain ⟨place, hplace⟩ := List.mem_iff_getElem?.mp hi
    refine .inr ⟨place, i, hplace, ?_, ?_⟩
    · rw [KirInstruction.defs, hresults]
      exact List.mem_singleton_self _
    · rw [KirInstruction.firstResult, KirInstruction.defs, hresults]
      rfl

/-- What a definition reached it still reaches where that has moved to. -/
theorem simplify_definition (hf : f.Strict) (h : f.CopiedBy prepared) {d : ValueDefinition}
    (hd : f.valueDefinition? v = some d) :
    ∃ d', (f.simplify prepared).valueDefinition? v = some d' ∧
      ∀ dominators block index, d.reaches dominators block index = true →
        d'.reaches dominators block (index + f.moved prepared block) = true := by
  have hnodup := simplify_values_nodup hf h
  rcases List.mem_append.mp (mem_of_lookup hd) with hparam | hblock
  · obtain ⟨p, hp, heq⟩ := List.mem_map.mp hparam
    cases heq
    exact ⟨_, valueDefinition?_of_param hnodup (List.mem_map_of_mem (f := (·.value)) hp),
      fun _ _ _ _ ↦ rfl⟩
  obtain ⟨b, hb, hmem⟩ := List.mem_flatMap.mp hblock
  have hb' : b.simplify prepared f.id ∈ (f.simplify prepared).blocks := simplify_block_mem hb
  rcases List.mem_append.mp hmem with hparam | hresult
  · obtain ⟨p, hp, heq⟩ := List.mem_map.mp hparam
    cases heq
    rcases simplify_param h hb (List.mem_map_of_mem (f := (·.value)) hp) with
      hkept | ⟨k, i, hi, hdef, -⟩
    · refine ⟨_, valueDefinition?_of_blockParam hnodup hb' hkept, fun dominators block index ↦ ?_⟩
      exact fun hreaches ↦ hreaches
    · refine ⟨_, valueDefinition?_of_result hnodup hb' (simplify_instruction_copy hi) hdef, ?_⟩
      intro dominators block index hreaches
      rw [ValueDefinition.reaches, Bool.or_eq_true, decide_eq_true_eq] at hreaches
      show (if b.id = block then decide (k < index + f.moved prepared block)
        else dominators b.id block) = true
      by_cases hsame : b.id = block
      · subst hsame
        rw [if_pos rfl, decide_eq_true_eq]
        exact Nat.lt_add_left index (List.getElem?_eq_some_iff.mp hi).1
      · rw [if_neg hsame]
        exact hreaches.resolve_left hsame
  · obtain ⟨⟨i, j⟩, hi, hmem⟩ := List.mem_flatMap.mp hresult
    obtain ⟨w, hw, heq⟩ := List.mem_map.mp hmem
    cases heq
    have hj := List.mk_mem_zipIdx_iff_getElem?.mp hi
    refine ⟨_, valueDefinition?_of_result hnodup hb'
      ((simplify_instruction_moved j).trans hj) hw, ?_⟩
    intro dominators block index hreaches
    show (if b.id = block then decide (j + f.moved prepared b.id < index + f.moved prepared block)
      else dominators b.id block) = true
    rw [ValueDefinition.reaches] at hreaches
    by_cases hsame : b.id = block
    · subst hsame
      rw [if_pos rfl, decide_eq_true_eq] at hreaches ⊢
      exact Nat.add_lt_add_right hreaches _
    · rw [if_neg hsame] at hreaches ⊢
      exact hreaches

theorem simplify_useErrors (hf : f.Strict) (h : f.CopiedBy prepared) {dominators : Dominators}
    {block : BlockId} {index : Nat} (huse : valueUseErrors f dominators block index v = []) :
    valueUseErrors (f.simplify prepared) dominators block (index + f.moved prepared block) v =
      [] := by
  unfold valueUseErrors at huse ⊢
  cases hd : f.valueDefinition? v with
  | none =>
      rw [hd] at huse
      cases huse
  | some d =>
      obtain ⟨d', hd', hreaches⟩ := simplify_definition hf h hd
      rw [hd] at huse
      rw [hd']
      dsimp only at huse ⊢
      split at huse
      · rename_i hd
        exact if_pos (hreaches _ _ _ hd)
      · cases huse

/-- The source of a copy is a parameter, or the result of an earlier copy. -/
theorem copy_useErrors (hf : f.Strict) (h : f.CopiedBy prepared) (hb : b ∈ f.blocks)
    {dominators : Dominators} {k : Nat} {i : KirInstruction}
    (hi : (copiesAt prepared f.id b.id)[k]? = some i) :
    i.uses.flatMap (valueUseErrors (f.simplify prepared) dominators b.id k) = [] := by
  have hnodup := simplify_values_nodup hf h
  have hb' : b.simplify prepared f.id ∈ (f.simplify prepared).blocks := simplify_block_mem hb
  obtain ⟨place, param, source, -, -, hcopy, hsource, pairs, hpair, hpairs⟩ :=
    (h b hb).copy i (List.mem_of_getElem? hi)
  obtain ⟨hlt, -⟩ := typed_of_pairMatches hf.values (hpairs _ hpair)
  have hfirst : i.firstResult = param.value := by
    rw [KirInstruction.firstResult, hcopy]
    rfl
  have huses : i.uses = [source] := by rw [hcopy, KirInstruction.uses]
  rw [huses, List.flatMap_singleton]
  unfold valueUseErrors
  rcases simplify_param h hb hsource with hkept | ⟨k', i', hi', hdef, hvalue⟩
  · rw [valueDefinition?_of_blockParam hnodup hb' hkept]
    exact if_pos (by simp [ValueDefinition.reaches, KirBlock.simplify])
  · have hearlier : k' < k := by
      obtain ⟨hklt, hk⟩ := List.getElem?_eq_some_iff.mp hi
      obtain ⟨hklt', hk'⟩ := List.getElem?_eq_some_iff.mp hi'
      by_contra hle
      rcases (Nat.le_of_not_lt hle).lt_or_eq with hbefore | rfl
      · have hsorted := List.pairwise_iff_getElem.mp (h b hb).sorted k k' hklt hklt' hbefore
        rw [hk, hk', hfirst, hvalue] at hsorted
        exact hlt.not_gt hsorted
      · rw [hk] at hk'
        rw [hk', hvalue] at hfirst
        exact hlt.ne hfirst
    rw [valueDefinition?_of_result hnodup hb' (simplify_instruction_copy hi') hdef]
    exact if_pos (by simp [ValueDefinition.reaches, KirBlock.simplify, hearlier])

/-! ## The checks of values -/

theorem simplify_typeErrors (hf : f.Strict) (h : f.CopiedBy prepared) (i : KirInstruction)
    (j : Nat) :
    instructionTypeErrors (f.simplify prepared) (b.simplify prepared f.id) i
      (j + f.moved prepared b.id) = instructionTypeErrors f b i j := by
  have hnext : (b.simplify prepared f.id).instructions[j + f.moved prepared b.id + 1]? =
      b.instructions[j + 1]? := by
    rw [Nat.add_right_comm]
    exact simplify_instruction_moved (j + 1)
  rw [instructionTypeErrors, instructionTypeErrors, simplify_recordedType? hf h, hnext]

theorem copy_typeErrors (h : f.CopiedBy prepared) (hb : b ∈ f.blocks) {i : KirInstruction}
    (hi : i ∈ copiesAt prepared f.id b.id) (g : KirFunction) (c : KirBlock) (k : Nat) :
    instructionTypeErrors g c i k = [] := by
  obtain ⟨place, param, source, -, -, hcopy, -⟩ := (h b hb).copy i hi
  rw [hcopy]
  rfl

theorem simplify_reverse_find (target : BlockId) :
    (f.simplify prepared).blocks.reverse.find? (·.id = target) =
      (f.blocks.reverse.find? (·.id = target)).map (·.simplify prepared f.id) := by
  rw [simplify, ← List.map_reverse, List.find?_map]
  rfl

theorem simplify_edgeErrors (hf : f.Strict) (h : f.CopiedBy prepared) {edge : KirEdge}
    (hedge : edgeValueErrors f b edge = []) :
    edgeValueErrors (f.simplify prepared) (b.simplify prepared f.id)
      (repairEdge prepared f.id edge) = [] := by
  unfold edgeValueErrors at hedge ⊢
  have htarget : (repairEdge prepared f.id edge).target = edge.target := rfl
  rw [htarget, simplify_reverse_find]
  cases hfind : f.blocks.reverse.find? (·.id = edge.target) with
  | none =>
      rw [hfind] at hedge
      cases hedge
  | some target =>
      have hid : target.id = edge.target := by simpa using List.find?_some hfind
      rw [hfind] at hedge
      obtain ⟨hlength, htypes⟩ := List.append_eq_nil_iff.mp hedge
      have hlength : edge.args.length = target.params.length := by simpa using hlength
      have hlength' := length_eraseAt_congr hlength (droppedAt prepared f.id edge.target)
      rw [Option.map_some]
      refine List.append_eq_nil_iff.mpr ⟨if_pos ?_, List.flatMap_eq_nil_iff.mpr fun pair hpair ↦ ?_⟩
      · rw [KirBlock.simplify, hid]
        exact hlength'
      · rw [simplify_recordedType? hf h]
        refine List.flatMap_eq_nil_iff.mp htypes pair ?_
        rw [KirBlock.simplify, repairEdge, hid, eraseAt_zip] at hpair
        exact (eraseAt_sublist _ _).subset hpair

theorem simplify_terminatorErrors (hf : f.Strict) (h : f.CopiedBy prepared)
    (terminator : KirTerminator) :
    terminatorTypeErrors (f.simplify prepared) (terminator.repair prepared f.id) =
      terminatorTypeErrors f terminator := by
  have hreturn : (f.simplify prepared).returnType = f.returnType := rfl
  cases terminator with
  | «return» value memory effectOrder =>
      cases value <;>
        simp only [KirTerminator.repair, terminatorTypeErrors, hreturn, simplify_recordedType? hf h]
  | jump edge => rfl
  | branch condition thenEdge elseEdge =>
      simp only [KirTerminator.repair, terminatorTypeErrors, simplify_recordedType? hf h]

/-- An instruction of a simplified block is a copy or has moved on by the copies. -/
theorem simplify_instruction_cases {k : Nat} {i : KirInstruction}
    (hi : (b.simplify prepared f.id).instructions[k]? = some i) :
    (copiesAt prepared f.id b.id)[k]? = some i ∨
      ∃ j, k = j + f.moved prepared b.id ∧ b.instructions[j]? = some i := by
  rcases lt_or_ge k (f.moved prepared b.id) with hlt | hle
  · rw [KirBlock.simplify, List.getElem?_append_left hlt] at hi
    exact .inl hi
  · obtain ⟨j, rfl⟩ := Nat.exists_eq_add_of_le' hle
    exact .inr ⟨j, rfl, (simplify_instruction_moved j).symm.trans hi⟩

theorem simplify_blockErrors (hf : f.Strict) (h : f.CopiedBy prepared) (hb : b ∈ f.blocks)
    {dominators : Dominators} (herrors : blockValueErrors f dominators b = []) :
    blockValueErrors (f.simplify prepared) dominators (b.simplify prepared f.id) = [] := by
  obtain ⟨herrors, hedges⟩ := List.append_eq_nil_iff.mp herrors
  obtain ⟨herrors, hterminator⟩ := List.append_eq_nil_iff.mp herrors
  obtain ⟨hinstructions, huses⟩ := List.append_eq_nil_iff.mp herrors
  have hid : (b.simplify prepared f.id).id = b.id := rfl
  have hrepair : (b.simplify prepared f.id).terminator = b.terminator.repair prepared f.id := rfl
  refine List.append_eq_nil_iff.mpr ⟨List.append_eq_nil_iff.mpr
    ⟨List.append_eq_nil_iff.mpr ⟨?_, ?_⟩, ?_⟩, ?_⟩
  · refine List.flatMap_eq_nil_iff.mpr fun (i, k) hmem ↦ ?_
    rcases simplify_instruction_cases (List.mk_mem_zipIdx_iff_getElem?.mp hmem) with
      hcopy | ⟨j, rfl, hmoved⟩
    · exact List.append_eq_nil_iff.mpr ⟨copy_useErrors hf h hb hcopy,
        copy_typeErrors h hb (List.mem_of_getElem? hcopy) _ _ k⟩
    · obtain ⟨huse, htype⟩ := List.append_eq_nil_iff.mp
        (List.flatMap_eq_nil_iff.mp hinstructions (i, j)
          (List.mk_mem_zipIdx_iff_getElem?.mpr hmoved))
      refine List.append_eq_nil_iff.mpr ⟨List.flatMap_eq_nil_iff.mpr fun v hv ↦ ?_, ?_⟩
      · exact simplify_useErrors hf h (List.flatMap_eq_nil_iff.mp huse v hv)
      · exact (simplify_typeErrors hf h i j).trans htype
  · refine List.flatMap_eq_nil_iff.mpr fun v hv ↦ ?_
    have hlength : (b.simplify prepared f.id).instructions.length =
        b.instructions.length + f.moved prepared b.id := by
      rw [KirBlock.simplify, List.length_append, Nat.add_comm]
    rw [hlength]
    exact simplify_useErrors hf h
      (List.flatMap_eq_nil_iff.mp huses v (KirTerminator.repair_uses (hrepair ▸ hv)))
  · rw [hrepair, simplify_terminatorErrors hf h]
    exact hterminator
  · refine List.flatMap_eq_nil_iff.mpr fun edge hedge ↦ ?_
    rw [hrepair, KirTerminator.repair_edges] at hedge
    obtain ⟨original, horiginal, rfl⟩ := List.mem_map.mp hedge
    exact simplify_edgeErrors hf h (List.flatMap_eq_nil_iff.mp hedges original horiginal)

/-! ## The checks of memory -/

/-- A memory definition, moved on by the copies of its block. -/
def movedDefinition (f : KirFunction) (prepared : List PreparedCopy) :
    MemoryDefinition → MemoryDefinition
  | .instruction block index => .instruction block (index + f.moved prepared block)
  | d => d

def movedEntry (f : KirFunction) (prepared : List PreparedCopy) (entry : MemoryDefinitionEntry) :
    MemoryDefinitionEntry :=
  { entry with definition := f.movedDefinition prepared entry.definition }

theorem copy_memory (h : f.CopiedBy prepared) (hb : b ∈ f.blocks) {i : KirInstruction}
    (hi : i ∈ copiesAt prepared f.id b.id) : i.memory = none := by
  obtain ⟨place, param, source, -, -, hcopy, -⟩ := (h b hb).copy i hi
  rw [hcopy]

/-- The copies set no memory version. -/
theorem copies_outputEntries (h : f.CopiedBy prepared) (hb : b ∈ f.blocks) :
    ((copiesAt prepared f.id b.id).zipIdx.filterMap fun (i, index) ↦
      i.memory.bind fun memory ↦ memory.output.map fun output ↦
        (⟨output, memory.region, .instruction b.id index⟩ : MemoryDefinitionEntry)) = [] := by
  refine List.filterMap_eq_nil_iff.mpr fun p hp ↦ ?_
  have hmem := List.mem_of_getElem? (List.mk_mem_zipIdx_iff_getElem?.mp hp)
  dsimp only
  rw [copy_memory h hb hmem]
  rfl

theorem simplify_outputEntries (h : f.CopiedBy prepared) (hb : b ∈ f.blocks) :
    (b.simplify prepared f.id).outputEntries = b.outputEntries.map (f.movedEntry prepared) := by
  have hid : (b.simplify prepared f.id).id = b.id := rfl
  rw [KirBlock.outputEntries, KirBlock.outputEntries, hid, KirBlock.simplify, List.zipIdx_append,
    List.filterMap_append, List.map_filterMap]
  rw [copies_outputEntries h hb, List.nil_append, Nat.zero_add, List.zipIdx_eq_map_add,
    List.filterMap_map]
  refine List.filterMap_congr fun p _ ↦ ?_
  obtain ⟨i, j⟩ := p
  cases hmemory : i.memory with
  | none => simp [hmemory]
  | some memory =>
      cases houtput : memory.output with
      | none => simp [hmemory, houtput]
      | some output => simp [hmemory, houtput, movedEntry, movedDefinition, Nat.add_comm]

theorem simplify_memoryDefinitions (h : f.CopiedBy prepared) :
    (f.simplify prepared).memoryDefinitions =
      f.memoryDefinitions.map (f.movedEntry prepared) := by
  have hinitial : (f.simplify prepared).initialMemory = f.initialMemory := rfl
  rw [memoryDefinitions, memoryDefinitions, hinitial, List.map_append, List.map_map,
    List.map_flatMap, simplify, List.flatMap_map]
  refine congrArg₂ (· ++ ·) rfl (List.flatMap_congr fun b hb ↦ ?_)
  rw [simplify_outputEntries h hb, List.map_append, List.map_map]
  rfl

theorem simplify_memoryDefinition? (h : f.CopiedBy prepared) (version : MemoryVersionId) :
    (f.simplify prepared).memoryDefinition? version =
      (f.memoryDefinition? version).map (f.movedDefinition prepared) := by
  rw [memoryDefinition?, memoryDefinition?, simplify_memoryDefinitions h, List.find?_map,
    Option.map_map, Option.map_map]
  rfl

theorem simplify_versionRegion? (h : f.CopiedBy prepared) (version : MemoryVersionId) :
    (f.simplify prepared).versionRegion? version = f.versionRegion? version := by
  rw [versionRegion?, versionRegion?, simplify_memoryDefinitions h, ← List.map_reverse,
    List.find?_map, Option.map_map]
  rfl

theorem simplify_memoryUseErrors (h : f.CopiedBy prepared) (dominators : Dominators)
    (block : BlockId) (index : Nat) (version : MemoryVersionId) :
    memoryUseErrors (f.simplify prepared) dominators block (index + f.moved prepared block) version =
      memoryUseErrors f dominators block index version := by
  have hreaches : ∀ d : MemoryDefinition,
      (f.movedDefinition prepared d).reaches dominators block (index + f.moved prepared block) =
        d.reaches dominators block index := by
    intro d
    cases d with
    | initial | blockParam => rfl
    | instruction definedIn place =>
        simp only [movedDefinition, MemoryDefinition.reaches]
        by_cases hsame : definedIn = block
        · subst hsame
          simp
        · rw [if_neg hsame, if_neg hsame]
  rw [memoryUseErrors, memoryUseErrors, simplify_memoryDefinition? h]
  cases f.memoryDefinition? version with
  | none => rfl
  | some d =>
      rw [Option.map_some]
      dsimp only
      rw [hreaches]

theorem simplify_partitionErrors (h : f.CopiedBy prepared) (version : MemoryVersionId)
    (region : MemoryRegionId) (message : String) :
    partitionErrors (f.simplify prepared) version region message =
      partitionErrors f version region message := by
  rw [partitionErrors, partitionErrors, simplify_versionRegion? h]

theorem simplify_instructions_length :
    (b.simplify prepared f.id).instructions.length =
      b.instructions.length + f.moved prepared b.id := by
  rw [KirBlock.simplify, List.length_append, Nat.add_comm]

theorem simplify_edgeMemoryErrors (h : f.CopiedBy prepared) (dominators : Dominators)
    (edge : KirEdge) :
    edgeMemoryErrors (f.simplify prepared) dominators (b.simplify prepared f.id)
      (repairEdge prepared f.id edge) = edgeMemoryErrors f dominators b edge := by
  have huse : (repairEdge prepared f.id edge).memoryArgs.flatMap (memoryUseErrors
      (f.simplify prepared) dominators b.id (b.instructions.length + f.moved prepared b.id)) =
      edge.memoryArgs.flatMap (memoryUseErrors f dominators b.id b.instructions.length) :=
    List.flatMap_congr fun version _ ↦ simplify_memoryUseErrors h dominators b.id _ version
  have htarget : (repairEdge prepared f.id edge).target = edge.target := rfl
  have hargs : (repairEdge prepared f.id edge).memoryArgs = edge.memoryArgs := rfl
  have hid : (b.simplify prepared f.id).id = b.id := rfl
  rw [edgeMemoryErrors, edgeMemoryErrors, simplify_instructions_length, hid, huse, htarget,
    simplify_reverse_find, hargs]
  congr 1
  cases f.blocks.reverse.find? (·.id = edge.target) with
  | none => rfl
  | some target =>
      refine congrArg₂ (· ++ ·) rfl (List.flatMap_congr fun pair _ ↦ ?_)
      exact simplify_partitionErrors h _ _ _

theorem simplify_blockMemoryErrors (h : f.CopiedBy prepared) (hb : b ∈ f.blocks)
    {dominators : Dominators} (herrors : blockMemoryErrors f dominators b = []) :
    blockMemoryErrors (f.simplify prepared) dominators (b.simplify prepared f.id) = [] := by
  obtain ⟨herrors, hreturn⟩ := List.append_eq_nil_iff.mp herrors
  obtain ⟨hinstructions, hedges⟩ := List.append_eq_nil_iff.mp herrors
  have hrepair : (b.simplify prepared f.id).terminator = b.terminator.repair prepared f.id := rfl
  refine List.append_eq_nil_iff.mpr ⟨List.append_eq_nil_iff.mpr ⟨?_, ?_⟩, ?_⟩
  · refine List.flatMap_eq_nil_iff.mpr fun (i, k) hmem ↦ ?_
    rcases simplify_instruction_cases (List.mk_mem_zipIdx_iff_getElem?.mp hmem) with
      hcopy | ⟨j, rfl, hmoved⟩
    · obtain ⟨place, param, source, -, -, hshape, -⟩ := (h b hb).copy i (List.mem_of_getElem? hcopy)
      dsimp only
      rw [hshape]
      rfl
    · have hbefore := List.flatMap_eq_nil_iff.mp hinstructions (i, j)
        (List.mk_mem_zipIdx_iff_getElem?.mpr hmoved)
      dsimp only at hbefore ⊢
      rw [← hbefore, instructionMemoryErrors, instructionMemoryErrors]
      refine congrArg₂ (· ++ ·) rfl ?_
      cases i.memory with
      | none => rfl
      | some memory =>
          exact congrArg₂ (· ++ ·) (simplify_memoryUseErrors h dominators b.id j memory.input)
            (simplify_partitionErrors h _ _ _)
  · refine List.flatMap_eq_nil_iff.mpr fun edge hedge ↦ ?_
    rw [hrepair, KirTerminator.repair_edges] at hedge
    obtain ⟨original, horiginal, rfl⟩ := List.mem_map.mp hedge
    rw [simplify_edgeMemoryErrors h]
    exact List.flatMap_eq_nil_iff.mp hedges original horiginal
  · rw [hrepair]
    cases hterminator : b.terminator with
    | jump | branch => rfl
    | «return» value memory effectOrder =>
        rw [hterminator] at hreturn
        refine List.flatMap_eq_nil_iff.mpr fun pair hpair ↦ ?_
        have hbefore := List.flatMap_eq_nil_iff.mp hreturn pair hpair
        have huse := simplify_memoryUseErrors h dominators b.id b.instructions.length pair.2
        dsimp only at hbefore ⊢
        rw [simplify_instructions_length, simplify_partitionErrors h]
        exact (congrArg₂ (· ++ ·) huse rfl).trans hbefore

theorem simplify_memoryVersions (h : f.CopiedBy prepared) :
    (f.simplify prepared).memoryVersions = f.memoryVersions := by
  rw [memoryVersions, memoryVersions, simplify, List.flatMap_map]
  refine congrArg₂ (· ++ ·) rfl (List.flatMap_congr fun b hb ↦ ?_)
  have hcopies : (copiesAt prepared f.id b.id).filterMap (fun i ↦ i.memory.bind (·.output)) = [] :=
    List.filterMap_eq_nil_iff.mpr fun i hi ↦ by rw [copy_memory h hb hi]; rfl
  rw [KirBlock.simplify, List.filterMap_append, hcopies, List.nil_append]

end KirFunction

end Values

/-! ## Typing -/

section Typing

variable {m : KirModule} {prepared : List PreparedCopy} {f : KirFunction} {b : KirBlock}

theorem callWellTyped_simplify (types : ValueId → Option MirType) (name : String)
    (args : List ValueId) (results : List KirValueType) :
    callWellTyped types (m.simplify prepared) name args results =
      callWellTyped types m name args results := by
  rw [callWellTyped, callWellTyped, KirModule.simplify_function?]
  cases m.function? name <;> rfl

theorem wellTyped_simplify (types : ValueId → Option MirType) (i : KirInstruction) :
    i.wellTyped (m.simplify prepared).structs types (m.simplify prepared) =
      i.wellTyped m.structs types m := by
  have hstructs : (m.simplify prepared).structs = m.structs := rfl
  unfold KirInstruction.wellTyped
  simp only [callWellTyped_simplify, hstructs]

/-- A copy of a value of integer type is well-typed. -/
theorem copy_wellTyped (hf : f.Strict) (h : f.CopiedBy prepared) (hb : b ∈ f.blocks)
    {i : KirInstruction} (hi : i ∈ copiesAt prepared f.id b.id) :
    i.wellTyped m.structs f.scalarType? m = true := by
  obtain ⟨place, param, source, -, hparam, hcopy, -, pairs, hpair, hpairs⟩ := (h b hb).copy i hi
  obtain ⟨-, type, hsource, hvalue⟩ :=
    KirFunction.typed_of_pairMatches hf.values (hpairs _ hpair)
  have hsourceType := KirFunction.scalarType?_of_integerType hsource
  rw [KirFunction.valueType?_of_blockParam hf.values hb (List.mem_of_getElem? hparam),
    Option.bind_some] at hvalue
  cases hnode : param.typeNode with
  | scalar typeNode =>
      rw [hnode] at hvalue
      obtain rfl := IntegerType.eq_mirType hvalue
      rw [hcopy, hnode]
      exact decide_eq_true hsourceType
  | fixedVector | mask =>
      rw [hnode] at hvalue
      cases hvalue

theorem guardsFollow_copies {copies rest : List KirInstruction}
    (hcopies : ∀ i ∈ copies, i.requiredGuard = none) (hrest : guardsFollow rest = true) :
    guardsFollow (copies ++ rest) = true := by
  induction copies with
  | nil => exact hrest
  | cons i copies ih =>
      have htail := ih fun k hk ↦ hcopies k (List.mem_cons_of_mem _ hk)
      have hguard := hcopies i List.mem_cons_self
      rw [List.cons_append]
      cases hnext : copies ++ rest with
      | nil => exact decide_eq_true hguard
      | cons next others =>
          rw [hnext] at htail
          rw [guardsFollow, hguard]
          exact htail

theorem edgeWellTyped_simplify (hf : f.Strict) (h : f.CopiedBy prepared) {edge : KirEdge}
    (hedge : f.edgeWellTyped edge = true) :
    (f.simplify prepared).edgeWellTyped (repairEdge prepared f.id edge) = true := by
  unfold KirFunction.edgeWellTyped at hedge ⊢
  have htarget : (repairEdge prepared f.id edge).target = edge.target := rfl
  rw [htarget, KirFunction.simplify_block?, KirFunction.simplify_scalarType? hf h]
  cases hblock : f.block? edge.target with
  | none =>
      rw [hblock] at hedge
      cases hedge
  | some target =>
      rw [hblock] at hedge
      have hid := (KirFunction.mem_blocks_of_block? hblock).2
      have htypes := congrArg (eraseAt (droppedAt prepared f.id edge.target)) (of_decide_eq_true hedge)
      rw [eraseAt_map, eraseAt_map] at htypes
      rw [Option.map_some]
      refine decide_eq_true ?_
      rw [KirBlock.simplify, hid]
      exact htypes

theorem terminatorWellTyped_simplify (hf : f.Strict) (h : f.CopiedBy prepared)
    {terminator : KirTerminator} (hterminator : f.terminatorWellTyped terminator = true) :
    (f.simplify prepared).terminatorWellTyped (terminator.repair prepared f.id) = true := by
  have htypes := KirFunction.simplify_scalarType? hf h
  cases terminator with
  | «return» value memory effectOrder =>
      cases value with
      | none => exact hterminator
      | some v =>
          rw [KirTerminator.repair, KirFunction.terminatorWellTyped, htypes]
          exact hterminator
  | jump edge => exact edgeWellTyped_simplify hf h hterminator
  | branch condition thenEdge elseEdge =>
      simp only [KirFunction.terminatorWellTyped, Bool.and_eq_true] at hterminator
      obtain ⟨⟨hcondition, hthen⟩, helse⟩ := hterminator
      simp only [KirTerminator.repair, KirFunction.terminatorWellTyped, htypes, Bool.and_eq_true]
      exact ⟨⟨hcondition, edgeWellTyped_simplify hf h hthen⟩, edgeWellTyped_simplify hf h helse⟩

theorem simplify_wellTyped (hf : f.Strict) (h : f.CopiedBy prepared) (htyped : f.WellTyped m)
    (hinstructions : ((f.simplify prepared).instructions.map (·.id)).Nodup) :
    (f.simplify prepared).WellTyped (m.simplify prepared) where
  values := KirFunction.simplify_values_nodup hf h
  blockIds := by
    have hids : (f.simplify prepared).blocks.map (·.id) = f.blocks.map (·.id) :=
      KirFunction.simplify_blockIds
    rw [hids]
    exact htyped.blockIds
  instructionIds := hinstructions
  guards := by
    intro b' hb'
    obtain ⟨b, hb, rfl⟩ := KirFunction.mem_simplify_blocks hb'
    refine guardsFollow_copies (fun i hi ↦ ?_) (htyped.guards b hb)
    obtain ⟨place, param, source, -, -, hcopy, -⟩ := (h b hb).copy i hi
    rw [hcopy]
    rfl
  typed := by
    intro b' hb'
    obtain ⟨b, hb, rfl⟩ := KirFunction.mem_simplify_blocks hb'
    obtain ⟨hall, hterminator⟩ := Bool.and_eq_true_iff.mp (htyped.typed b hb)
    refine Bool.and_eq_true_iff.mpr ⟨List.all_eq_true.mpr fun i hi ↦ ?_, ?_⟩
    · rw [wellTyped_simplify, KirFunction.simplify_scalarType? hf h]
      rcases List.mem_append.mp hi with hcopy | hmoved
      · exact copy_wellTyped hf h hb hcopy
      · exact List.all_eq_true.mp hall i hmoved
    · exact terminatorWellTyped_simplify hf h hterminator

end Typing

/-! ## The module -/

/-- The module passes the checks of values and memory, its functions have identities of their
own, and it is well-typed. -/
structure KirModule.Verified (m : KirModule) : Prop where
  values : m.valueErrors = []
  memory : m.memoryErrors KirFunction.computeKirDominators = []
  functionIds : (m.functions.map (·.id)).Nodup
  typed : m.WellTyped

instance (m : KirModule) : Decidable m.Verified :=
  decidable_of_iff (m.valueErrors = [] ∧ m.memoryErrors KirFunction.computeKirDominators = [] ∧
      (m.functions.map (·.id)).Nodup ∧ m.WellTyped)
    ⟨fun ⟨h₁, h₂, h₃, h₄⟩ ↦ ⟨h₁, h₂, h₃, h₄⟩, fun ⟨h₁, h₂, h₃, h₄⟩ ↦ ⟨h₁, h₂, h₃, h₄⟩⟩

section Module

variable {m : KirModule} {prepared : List PreparedCopy} {f : KirFunction} {b : KirBlock}

theorem KirModule.lt_firstFreeInstruction {id : InstructionId}
    (h : id ∈ m.functions.flatMap fun f ↦ f.instructions.map (·.id)) :
    id < m.firstFreeInstruction := by
  have hmem : id ∈ (m.functions.flatMap (·.instructions)).map (·.id) := by
    rwa [List.map_flatMap]
  unfold firstFreeInstruction
  cases hmax : ((m.functions.flatMap (·.instructions)).map (·.id)).max? with
  | none =>
      rw [List.max?_eq_none_iff.mp hmax] at hmem
      cases hmem
  | some greatest => exact Nat.lt_succ_of_le ((List.max?_eq_some_iff.mp hmax).2 id hmem)

/-- The identities of the copies of two blocks are apart. -/
theorem PreparedCopies.copies_disjoint (h : PreparedCopies m prepared) {function g : FunctionId}
    {block c : BlockId} (hne : block ≠ c) :
    List.Disjoint ((copiesAt prepared function block).map (·.id))
      ((copiesAt prepared g c).map (·.id)) := by
  intro id hleft hright
  obtain ⟨i, hi, rfl⟩ := List.mem_map.mp hleft
  obtain ⟨k, hk, hid⟩ := List.mem_map.mp hright
  obtain ⟨p, hp, -, hblock, rfl⟩ := PreparedCopies.mem_copiesAt.mp hi
  obtain ⟨q, hq, -, hblock', rfl⟩ := PreparedCopies.mem_copiesAt.mp hk
  obtain rfl := List.inj_on_of_nodup_map h.ids hp hq hid.symm
  exact hne (hblock.symm.trans hblock')

theorem PreparedCopies.copies_nodup (h : PreparedCopies m prepared) (function : FunctionId)
    (block : BlockId) : ((copiesAt prepared function block).map (·.id)).Nodup := by
  rw [copiesAt, ((List.perm_insertionSort _ _).map _).nodup_iff, List.map_map]
  exact (List.filter_sublist.map _).nodup h.ids

/-- The copies have identities of their own. -/
theorem PreparedCopies.instructionIds (h : PreparedCopies m prepared)
    (hblocks : (m.functions.flatMap (·.blockIds)).Nodup)
    (hids : (m.functions.flatMap fun f ↦ f.instructions.map (·.id)).Nodup) :
    ((m.simplify prepared).functions.flatMap fun f ↦ f.instructions.map (·.id)).Nodup := by
  have hsplit : ∀ f : KirFunction, ((f.simplify prepared).instructions.map (·.id)).Perm
      (f.instructions.map (·.id) ++
        f.blocks.flatMap fun b ↦ (copiesAt prepared f.id b.id).map (·.id)) := by
    intro f
    rw [KirFunction.instructions, KirFunction.instructions, KirFunction.simplify, List.flatMap_map,
      List.map_flatMap, List.map_flatMap]
    simp only [KirBlock.simplify, List.map_append]
    exact (List.flatMap_append_perm f.blocks _ _).symm.trans List.perm_append_comm
  have hperm : ((m.simplify prepared).functions.flatMap fun f ↦ f.instructions.map (·.id)).Perm
      ((m.functions.flatMap fun f ↦ f.instructions.map (·.id)) ++ m.functions.flatMap fun f ↦
        f.blocks.flatMap fun b ↦ (copiesAt prepared f.id b.id).map (·.id)) := by
    rw [KirModule.simplify, List.flatMap_map]
    exact (List.Perm.flatMap_left _ fun f _ ↦ hsplit f).trans
      (List.flatMap_append_perm m.functions _ _).symm
  obtain ⟨hfunction, happart⟩ := List.nodup_flatMap.mp hblocks
  refine hperm.nodup_iff.mpr (List.nodup_append.mpr ⟨hids, List.nodup_flatMap.mpr ⟨?_, ?_⟩, ?_⟩)
  · intro f hf
    refine List.nodup_flatMap.mpr ⟨fun b _ ↦ h.copies_nodup f.id b.id, ?_⟩
    exact (List.pairwise_map.mp (hfunction f hf)).imp fun hne ↦ h.copies_disjoint hne
  · refine happart.imp fun {f g} hdisjoint id hleft hright ↦ ?_
    obtain ⟨b, hb, hleft⟩ := List.mem_flatMap.mp hleft
    obtain ⟨c, hc, hright⟩ := List.mem_flatMap.mp hright
    refine h.copies_disjoint (fun heq ↦ ?_) hleft hright
    exact hdisjoint (List.mem_map_of_mem hb) (heq ▸ List.mem_map_of_mem hc)
  · rintro id hold _ hnew rfl
    obtain ⟨f, -, hnew⟩ := List.mem_flatMap.mp hnew
    obtain ⟨b, -, hnew⟩ := List.mem_flatMap.mp hnew
    obtain ⟨i, hi, rfl⟩ := List.mem_map.mp hnew
    obtain ⟨p, hp, -, -, rfl⟩ := PreparedCopies.mem_copiesAt.mp hi
    exact (KirModule.lt_firstFreeInstruction hold).not_ge (h.fresh p hp)

/-- The simplified module passes the checks of values. -/
theorem simplify_valueErrors (h : PreparedCopies m prepared) (hm : m.valueErrors = []) :
    (m.simplify prepared).valueErrors = [] := by
  have hblocks := KirModule.blockIds_nodup hm
  have hstrict : ∀ f ∈ m.functions, f.Strict := fun f hf ↦ KirFunction.strict_of_errors hm hf
  have hcopied : ∀ f ∈ m.functions, f.CopiedBy prepared := fun f hf b hb ↦
    h.block hblocks hf hb (KirFunction.params_nodup (hstrict f hf).values hb)
  obtain ⟨hids, hfunctions⟩ := List.append_eq_nil_iff.mp hm
  obtain ⟨hids, hinstructions⟩ := List.append_eq_nil_iff.mp hids
  obtain ⟨hvalues, -⟩ := List.append_eq_nil_iff.mp hids
  have hinstructions := h.instructionIds hblocks (duplicateErrors_eq_nil.mp hinstructions).1
  refine List.append_eq_nil_iff.mpr ⟨List.append_eq_nil_iff.mpr
    ⟨List.append_eq_nil_iff.mpr ⟨?_, ?_⟩, ?_⟩, ?_⟩
  · refine duplicateErrors_eq_nil.mpr ⟨?_, by simp⟩
    have hperm : ((m.simplify prepared).functions.flatMap (·.valueIds)).Perm
        (m.functions.flatMap (·.valueIds)) := by
      rw [KirModule.simplify, List.flatMap_map]
      exact List.Perm.flatMap_left _ fun f hf ↦
        KirFunction.simplify_valueIds (hstrict f hf) (hcopied f hf)
    exact hperm.nodup_iff.mpr (duplicateErrors_eq_nil.mp hvalues).1
  · refine duplicateErrors_eq_nil.mpr ⟨?_, by simp⟩
    rw [KirModule.simplify, List.flatMap_map]
    simpa only [KirFunction.simplify_blockIds] using hblocks
  · exact duplicateErrors_eq_nil.mpr ⟨hinstructions, by simp⟩
  · refine List.flatMap_eq_nil_iff.mpr fun f' hf' ↦ ?_
    obtain ⟨f, hf, rfl⟩ := List.mem_map.mp hf'
    rw [KirFunction.simplify_dominators]
    refine List.flatMap_eq_nil_iff.mpr fun b' hb' ↦ ?_
    obtain ⟨b, hb, rfl⟩ := KirFunction.mem_simplify_blocks hb'
    exact KirFunction.simplify_blockErrors (hstrict f hf) (hcopied f hf) hb
      (List.flatMap_eq_nil_iff.mp (List.flatMap_eq_nil_iff.mp hfunctions f hf) b hb)

/-- The simplified module passes the checks of memory. -/
theorem simplify_memoryErrors (hcopied : ∀ f ∈ m.functions, f.CopiedBy prepared)
    (hm : m.memoryErrors KirFunction.computeKirDominators = []) :
    (m.simplify prepared).memoryErrors KirFunction.computeKirDominators = [] := by
  obtain ⟨hids, hfunctions⟩ := List.append_eq_nil_iff.mp hm
  obtain ⟨hids, hversions⟩ := List.append_eq_nil_iff.mp hids
  obtain ⟨hregions, hblocks⟩ := List.append_eq_nil_iff.mp hids
  have hsame : (m.simplify prepared).functions = m.functions.map (·.simplify prepared) := rfl
  refine List.append_eq_nil_iff.mpr ⟨List.append_eq_nil_iff.mpr
    ⟨List.append_eq_nil_iff.mpr ⟨?_, ?_⟩, ?_⟩, ?_⟩
  · rw [hsame, List.flatMap_map]
    exact hregions
  · rw [hsame, List.flatMap_map]
    have hblockIds : ∀ f : KirFunction, (f.simplify prepared).blocks.map (·.id) =
        f.blocks.map (·.id) := fun f ↦ KirFunction.simplify_blockIds
    simpa only [hblockIds] using hblocks
  · rw [hsame, List.flatMap_map,
      List.flatMap_congr fun f hf ↦ KirFunction.simplify_memoryVersions (hcopied f hf)]
    exact hversions
  · refine List.flatMap_eq_nil_iff.mpr fun f' hf' ↦ ?_
    obtain ⟨f, hf, rfl⟩ := List.mem_map.mp hf'
    obtain ⟨hregion, hblocks⟩ := List.append_eq_nil_iff.mp
      (List.flatMap_eq_nil_iff.mp hfunctions f hf)
    refine List.append_eq_nil_iff.mpr ⟨hregion, List.flatMap_eq_nil_iff.mpr fun b' hb' ↦ ?_⟩
    obtain ⟨b, hb, rfl⟩ := KirFunction.mem_simplify_blocks hb'
    rw [KirFunction.simplify_dominators]
    exact KirFunction.simplify_blockMemoryErrors (hcopied f hf) hb
      (List.flatMap_eq_nil_iff.mp hblocks b hb)

/-- The simplified module is verified. -/
theorem KirModule.Verified.simplify (hm : m.Verified) (h : PreparedCopies m prepared) :
    (m.simplify prepared).Verified := by
  have hstrict : ∀ f ∈ m.functions, f.Strict := fun f hf ↦
    KirFunction.strict_of_errors hm.values hf
  have hcopied : ∀ f ∈ m.functions, f.CopiedBy prepared := fun f hf b hb ↦
    h.block (KirModule.blockIds_nodup hm.values) hf hb
      (KirFunction.params_nodup (hstrict f hf).values hb)
  have hvalues := simplify_valueErrors h hm.values
  have hsame : (m.simplify prepared).functions = m.functions.map (·.simplify prepared) := rfl
  refine ⟨hvalues, simplify_memoryErrors hcopied hm.memory, ?_, ?_, ?_⟩
  · rw [hsame, List.map_map]
    exact hm.functionIds
  · rw [hsame, List.map_map]
    exact hm.typed.names
  · intro f' hf'
    obtain ⟨f, hf, rfl⟩ := List.mem_map.mp hf'
    exact simplify_wellTyped (hstrict f hf) (hcopied f hf) (hm.typed.functions f hf)
      (KirFunction.strict_of_errors hvalues hf').instructions

end Module

end CalcKernel
