import CalcKernel.Backend.Wasm.BulkRuns

/-!
# Bodies of accepted loops

The body of a copy loads a word, stores it and counts up, that of a fill stores a constant
and counts up; where the counting stands does not matter.
-/

namespace CalcKernel

open Lib

/-! ## The instructions of a body -/

/-- Three instructions of different kinds, two of which are in order. -/
theorem three_instructions {l : List KirInstruction} {p q r : KirInstruction → Bool}
    (hlength : l.length = 3) {a b c : KirInstruction} (ha : l.find? p = some a)
    (hb : l.find? q = some b) (hc : l.find? r = some c) (hpq : ∀ i, p i = true → q i = false)
    (hpr : ∀ i, p i = true → r i = false) (hqr : ∀ i, q i = true → r i = false)
    (horder : l.findIdx p < l.findIdx q) : l = [c, a, b] ∨ l = [a, c, b] ∨ l = [a, b, c] := by
  obtain ⟨x, y, z, rfl⟩ := List.length_eq_three.mp hlength
  have hpa := List.find?_some ha
  have hqb := List.find?_some hb
  have hrc := List.find?_some hc
  have hmem := List.mem_of_find?_eq_some ha
  have hmem' := List.mem_of_find?_eq_some hb
  have hmem'' := List.mem_of_find?_eq_some hc
  have hab : a ≠ b := fun h ↦ by rw [← h, hpq a hpa] at hqb; cases hqb
  have hac : a ≠ c := fun h ↦ by rw [← h, hpr a hpa] at hrc; cases hrc
  have hbc : b ≠ c := fun h ↦ by rw [← h, hqr b hqb] at hrc; cases hrc
  have hqa := hpq a hpa
  have hpb : p b = false := Bool.eq_false_iff.mpr fun h ↦ by rw [hpq b h] at hqb; cases hqb
  have hpc : p c = false := Bool.eq_false_iff.mpr fun h ↦ by rw [hpr c h] at hrc; cases hrc
  have hqc : q c = false := Bool.eq_false_iff.mpr fun h ↦ by rw [hqr c h] at hrc; cases hrc
  simp only [List.mem_cons, List.not_mem_nil, or_false] at hmem hmem' hmem''
  rcases hmem with rfl | rfl | rfl <;> rcases hmem' with rfl | rfl | rfl <;>
    rcases hmem'' with rfl | rfl | rfl <;> first
    | exact absurd rfl hab
    | exact absurd rfl hac
    | exact absurd rfl hbc
    | exact .inl rfl
    | exact .inr (.inl rfl)
    | exact .inr (.inr rfl)
    | (simp only [List.findIdx_cons, hpa, hpb, hpc, hqa, hqb, hqc, cond_true, cond_false] at horder
       omega)

theorem two_instructions {l : List KirInstruction} {q r : KirInstruction → Bool}
    (hlength : l.length = 2) {b c : KirInstruction} (hb : l.find? q = some b)
    (hc : l.find? r = some c) (hqr : ∀ i, q i = true → r i = false) : l = [c, b] ∨ l = [b, c] := by
  obtain ⟨x, y, rfl⟩ := List.length_eq_two.mp hlength
  have hqb := List.find?_some hb
  have hrc := List.find?_some hc
  have hmem := List.mem_of_find?_eq_some hb
  have hmem' := List.mem_of_find?_eq_some hc
  have hbc : b ≠ c := fun h ↦ by rw [← h, hqr b hqb] at hrc; cases hrc
  simp only [List.mem_cons, List.not_mem_nil, or_false] at hmem hmem'
  rcases hmem with rfl | rfl <;> rcases hmem' with rfl | rfl <;> first
    | exact absurd rfl hbc
    | exact .inl rfl
    | exact .inr rfl

theorem not_stored_of_load {i : KirInstruction} (h : i.kind.loadPlace?.isSome = true) :
    i.kind.stored?.isSome = false := by
  obtain ⟨place, hplace⟩ := Option.isSome_iff_exists.mp h
  rw [KirInstructionKind.loadPlace?_eq_some hplace]
  rfl

theorem not_binary_of_load {i : KirInstruction} (h : i.kind.loadPlace?.isSome = true) :
    i.kind.isBinary = false := by
  obtain ⟨place, hplace⟩ := Option.isSome_iff_exists.mp h
  rw [KirInstructionKind.loadPlace?_eq_some hplace]
  rfl

theorem not_binary_of_store {i : KirInstruction} (h : i.kind.stored?.isSome = true) :
    i.kind.isBinary = false := by
  obtain ⟨⟨place, v⟩, hplace⟩ := Option.isSome_iff_exists.mp h
  rw [KirInstructionKind.stored?_eq_some hplace]
  rfl

theorem noConst_of_binary {i : KirInstruction} (h : i.kind.isBinary = true) :
    i.kind.constIntText? = none := by
  unfold KirInstructionKind.isBinary at h
  split at h
  · rename_i hkind
    rw [hkind]
    rfl
  · cases h

variable {f : KirFunction} {layout : WasmStructLayout}

/-- A place that is an element of the array behind a parameter, at the index. -/
structure ElementPlace (layout : WasmStructLayout) (params : List KirBlockParam) (place : KirPlace)
    (slot : Nat) (index : ValueId) (type : MirType) : Prop where
  address : isSupportedWord type = true → ∃ pointer, (params.map (·.value))[slot]? = some pointer ∧
    KirFunction.emitAddress layout place = some (KirFunction.elementAddress pointer index)

theorem isWasmWord_of_supported (layout : WasmStructLayout) {type : MirType}
    (h : isSupportedWord type = true) :
    isWasmWord type = true ∧ layout.sizeOf type = some 4 := by
  unfold isSupportedWord at h
  rw [Bool.or_eq_true, decide_eq_true_eq, decide_eq_true_eq] at h
  rcases h with rfl | rfl <;> exact ⟨rfl, rfl⟩

theorem indexedPointerSlot_eq_some (layout : WasmStructLayout) {params : List KirBlockParam}
    {place : KirPlace} {slot : Nat} {index : ValueId} {type : MirType}
    (h : indexedPointerSlot params place = some (slot, index, type)) :
    ElementPlace layout params place slot index type := by
  unfold indexedPointerSlot at h
  split at h
  case h_2 => cases h
  rename_i pointer pointee region index' type' region'
  split at h
  case isFalse => cases h
  rename_i hsame
  obtain ⟨slot', hslot, heq⟩ := Option.map_eq_some_iff.mp h
  cases heq
  refine ⟨fun hword ↦ ⟨pointer, getElem?_of_findIdx? hslot, ?_⟩⟩
  exact KirFunction.emitAddress_element (hsame ▸ (isWasmWord_of_supported layout hword).2)

/-- The body of a copy, with the instruction that counts in any place. -/
structure CopyBody (f : KirFunction) (layout : WasmStructLayout) (block : KirBlock)
    (index : ValueId) (b : BulkBody) (load store : KirInstruction) (source destination : ValueId)
    (loaded : KirResult) (sourceSlot : Nat) : Prop where
  order : block.instructions = [b.increment, load, store] ∨
    block.instructions = [load, b.increment, store] ∨
      block.instructions = [load, store, b.increment]
  slot : b.sourceSlot = some sourceSlot
  sourceParam : (block.params.map (·.value))[sourceSlot]? = some source
  destinationParam : (block.params.map (·.value))[b.destinationSlot]? = some destination
  loadKind : load.kind.loadPlace?.isSome = true
  noConst : ∀ i ∈ block.instructions, i.kind.constIntText? = none
  results : load.results = [loaded]
  emitLoad : f.emitInstruction layout load = some (KirFunction.elementAddress source index ++
    [.i32Load, .localSet (.value loaded.value)])
  emitStore : f.emitInstruction layout store = some (KirFunction.elementAddress destination index ++
    [.localGet (.value loaded.value), .i32Store])

theorem bulkCopyBody_eq_some {block : KirBlock} {index : ValueId} {b : BulkBody}
    (h : bulkCopyBody f block index = some b) :
    ∃ load store source destination loaded sourceSlot,
      CopyBody f layout block index b load store source destination loaded sourceSlot := by
  simp only [bulkCopyBody, bind, Option.bind_eq_some_iff, Option.guard_eq_some', pure,
    Option.some.injEq, Prod.exists] at h
  obtain ⟨-, hlength, load, hload, store, hstore, increment, hincrement, -, horder, loaded,
    hloaded, sourcePlace, hsourcePlace, destinationPlace, value, hdestinationPlace, -, rfl,
    sourceSlot, sourceIndex, sourceElement, hsource, destinationSlot, destinationIndex,
    destinationElement, hdestination, -, ⟨rfl, rfl, rfl, hword, htype⟩, rfl⟩ := h
  have hloadKind := List.find?_some hload
  obtain ⟨source, hsourceParam, hsourceAddress⟩ :=
    (indexedPointerSlot_eq_some layout hsource).address hword
  obtain ⟨destination, hdestinationParam, hdestinationAddress⟩ :=
    (indexedPointerSlot_eq_some layout hdestination).address hword
  have hresults := single?_eq_some hloaded
  have hisWord := (isWasmWord_of_supported layout hword).1
  have horder' := three_instructions hlength hload hstore hincrement
    (fun _ ↦ not_stored_of_load) (fun _ ↦ not_binary_of_load) (fun _ ↦ not_binary_of_store) horder
  refine ⟨load, store, source, destination, loaded, sourceSlot, horder', rfl, hsourceParam,
    hdestinationParam, hloadKind, fun i hi ↦ ?_, hresults,
    KirFunction.emit_load (KirInstructionKind.loadPlace?_eq_some hsourcePlace)
      (KirFunction.emitResult_eq hresults htype hisWord) hsourceAddress,
    KirFunction.emit_store (KirInstructionKind.stored?_eq_some hdestinationPlace) htype hisWord
      hdestinationAddress⟩
  have hcases : i = increment ∨ i = load ∨ i = store := by
    rcases horder' with h | h | h <;> rw [h] at hi <;>
      simp only [List.mem_cons, List.not_mem_nil, or_false] at hi <;> tauto
  rcases hcases with rfl | rfl | rfl
  · have hbinary := List.find?_some hincrement
    exact noConst_of_binary hbinary
  · rw [KirInstructionKind.loadPlace?_eq_some hsourcePlace]
    rfl
  · rw [KirInstructionKind.stored?_eq_some hdestinationPlace]
    rfl

/-- The instruction that counts the index up by the constant of the entry. -/
structure CountsUp (f : KirFunction) (layout : WasmStructLayout) (index step incremented : ValueId)
    (increment : KirInstruction) : Prop where
  binary : increment.kind.isBinary = true
  defs : increment.defs = [incremented]
  emit : f.emitInstruction layout increment = some [.localGet (.value index),
    .localGet (.value step), .i32Binary .add, .localSet (.value incremented)]

/-- A result that is read as a scalar is one. -/
theorem result_scalar {module : KirModule} (hf : f.WellTyped module) {i : KirInstruction}
    (hi : i ∈ f.instructions) {r : KirResult} (hr : r ∈ i.results) {type : MirType}
    (htype : f.scalarType? r.value = some type) : r.typeNode = .scalar type := by
  rw [KirFunction.scalarType?, KirFunction.valueType?_of_result hf.values hi hr,
    Option.bind_some] at htype
  cases hnode : r.typeNode with
  | scalar type' =>
      rw [hnode] at htype
      rw [Option.some.inj htype]
  | fixedVector | mask =>
      rw [hnode] at htype
      cases htype

theorem bulkIncrement_eq_some {module : KirModule} (hf : f.WellTyped module) {entry : KirBlock}
    {index incremented : ValueId} {increment : KirInstruction}
    (hmem : increment ∈ f.instructions)
    (h : bulkIncrement f entry index increment = some incremented) :
    ∃ step, CountsUp f layout index step incremented increment ∧
      ∃ i ∈ entry.instructions, i.kind = .constInt "1" ∧ i.results = [⟨step, .scalar .u32⟩] := by
  simp only [bulkIncrement, bind, Option.bind_eq_some_iff, Option.guard_eq_some', pure,
    Option.some.injEq, Prod.exists] at h
  obtain ⟨result, hresult, left, step, hadd, -, ⟨rfl, hconst, htype⟩, rfl⟩ := h
  have hresults := single?_eq_some hresult
  have hkind := KirInstructionKind.modularAdd?_eq_some hadd
  have hnode := result_scalar hf hmem (hresults ▸ List.mem_singleton_self result) htype
  obtain ⟨block, hblock, hin⟩ := KirFunction.mem_instructions.mp hmem
  have htyped := hf.typed block hblock
  rw [KirFunction.blockWellTyped, Bool.and_eq_true] at htyped
  have hinstruction := List.all_eq_true.mp htyped.1 increment hin
  rw [KirInstruction.wellTyped, hkind, KirInstruction.resultTypes, hresults, List.map_singleton,
    hnode] at hinstruction
  simp only [Bool.and_eq_true, decide_eq_true_eq] at hinstruction
  refine ⟨step, ⟨by rw [hkind]; rfl, by rw [KirInstruction.defs, hresults]; rfl, ?_⟩, hconst⟩
  exact KirFunction.emit_add hkind (KirFunction.emitResult_eq hresults htype rfl)
    hinstruction.1.1

/-! ## Bodies run -/

/-- The word that a copy stores. -/
def copyWord (slot : Nat) : LoopWord := fun words m i ↦
  (words[slot]?).bind fun s ↦ m.load32 (s + i * 4#32).toNat

/-- The word that a fill stores. -/
def fillWord (w : BitVec 32) : LoopWord := fun _ _ _ ↦ some w

/-- What a body needs to be able to count. -/
structure BodyCounts (f : KirFunction) (layout : WasmStructLayout) (block : KirBlock)
    (consts : WordConsts) (indexSlot : Nat) (index step incremented : ValueId)
    (increment : KirInstruction) : Prop where
  counts : CountsUp f layout index step incremented increment
  constant : (step, 1#32) ∈ consts
  indexParam : (block.params.map (·.value))[indexSlot]? = some index
  paramDefs : ∀ v ∈ block.params.map (·.value), v ∉ block.instructions.flatMap (·.defs)
  constDefs : ∀ p ∈ consts, p.1 ∉ block.instructions.flatMap (·.defs)

theorem update_value_of_ne {locals : WasmLocals} {v w : ValueId} {x : WasmValue} (h : v ≠ w) :
    Function.update locals (.value w) x (.value v) = locals (.value v) :=
  Function.update_of_ne (fun heq ↦ h (WasmLocal.value.inj heq)) _ _

theorem copy_runs {block : KirBlock} {index step incremented source destination : ValueId}
    {b : BulkBody} {load store : KirInstruction} {loaded : KirResult} {sourceSlot indexSlot : Nat}
    {consts : WordConsts} (hssa : f.valueIds.Nodup) (hblock : block ∈ f.blocks)
    (hcopy : CopyBody f layout block index b load store source destination loaded sourceSlot)
    (hcounts : BodyCounts f layout block consts indexSlot index step incremented b.increment) :
    RunsBody f layout block consts indexSlot b.destinationSlot incremented
      (copyWord sourceSlot) := by
  intro locals m words i d hconsts hwords hi hd
  obtain ⟨s, hs⟩ := hwords.exists_word hcopy.sourceParam
  have hsource := hwords.get hcopy.sourceParam hs
  have hdestination := hwords.get hcopy.destinationParam hd
  have hindex := hwords.get hcounts.indexParam hi
  have hstep : locals (.value step) = .i32 1#32 := hconsts _ hcounts.constant
  have hinBlock : ∀ i ∈ [b.increment, load, store], i ∈ block.instructions := by
    intro i hi
    rcases hcopy.order with h | h | h <;> rw [h] <;>
      simp only [List.mem_cons, List.not_mem_nil, or_false] at hi ⊢ <;> tauto
  have hincrementMem := hinBlock b.increment (by simp)
  have hloadMem := hinBlock load (by simp)
  have hloadedDef : loaded.value ∈ block.instructions.flatMap (·.defs) :=
    List.mem_flatMap.mpr ⟨load, hloadMem, by
      rw [KirInstruction.defs, hcopy.results]; exact List.mem_singleton_self _⟩
  have hincrementedDef : incremented ∈ block.instructions.flatMap (·.defs) :=
    List.mem_flatMap.mpr ⟨b.increment, hincrementMem, by
      rw [hcounts.counts.defs]; exact List.mem_singleton_self _⟩
  have hne : loaded.value ≠ incremented := by
    intro heq
    have hsame := KirFunction.instruction_unique hssa
      (KirFunction.mem_instructions.mpr ⟨block, hblock, hloadMem⟩)
      (KirFunction.mem_instructions.mpr ⟨block, hblock, hincrementMem⟩) (v := incremented)
      (by rw [KirInstruction.defs, hcopy.results, ← heq]; exact List.mem_singleton_self _)
      (by rw [hcounts.counts.defs]; exact List.mem_singleton_self _)
    have hbinary := not_binary_of_load hcopy.loadKind
    rw [hsame, hcounts.counts.binary] at hbinary
    cases hbinary
  have hparamNe : ∀ {k : Nat} {v : ValueId}, (block.params.map (·.value))[k]? = some v →
      v ≠ loaded.value ∧ v ≠ incremented := fun hv ↦
    ⟨fun h ↦ hcounts.paramDefs _ (List.mem_of_getElem? hv) (h ▸ hloadedDef),
      fun h ↦ hcounts.paramDefs _ (List.mem_of_getElem? hv) (h ▸ hincrementedDef)⟩
  obtain ⟨hsourceLoaded, hsourceIncremented⟩ := hparamNe hcopy.sourceParam
  obtain ⟨hdestinationLoaded, hdestinationIncremented⟩ := hparamNe hcopy.destinationParam
  obtain ⟨hindexLoaded, hindexIncremented⟩ := hparamNe hcounts.indexParam
  have hstepLoaded : step ≠ loaded.value := fun h ↦ hcounts.constDefs _ hcounts.constant (h ▸ hloadedDef)
  have hword : copyWord sourceSlot words m i = m.load32 (s + i * 4#32).toNat := by
    rw [copyWord, hs, Option.bind_some]
  rw [hword]
  -- what has been set before leaves the parameters and the constant as they are
  have hcounted : ∀ {v : ValueId} {x : BitVec 32}, v ≠ incremented → locals (.value v) = .i32 x →
      Function.update locals (.value incremented) (.i32 (i + 1#32)) (.value v) = .i32 x :=
    fun hv hx ↦ (update_value_of_ne hv).trans hx
  have hread : ∀ {v : ValueId} {x w : BitVec 32}, v ≠ loaded.value → locals (.value v) = .i32 x →
      Function.update locals (.value loaded.value) (.i32 w) (.value v) = .i32 x :=
    fun hv hx ↦ (update_value_of_ne hv).trans hx
  have hemitIncrement := hcounts.counts.emit
  cases hload : m.load32 (s + i * 4#32).toNat with
  | none =>
      rcases hcopy.order with horder | horder | horder <;> rw [horder]
      · exact .add hemitIncrement hindex hstep (.load_traps hcopy.emitLoad
          (hcounted hsourceIncremented hsource) (hcounted hindexIncremented hindex) hload
          (.cons hcopy.emitStore .nil))
      · exact .load_traps hcopy.emitLoad hsource hindex hload
          (.cons hemitIncrement (.cons hcopy.emitStore .nil))
      · exact .load_traps hcopy.emitLoad hsource hindex hload
          (.cons hcopy.emitStore (.cons hemitIncrement .nil))
  | some w =>
      -- the increment in front
      have hfront : ∀ {v : ValueId} {x : BitVec 32}, v ≠ loaded.value → v ≠ incremented →
          locals (.value v) = .i32 x → Function.update (Function.update locals (.value incremented)
            (.i32 (i + 1#32))) (.value loaded.value) (.i32 w) (.value v) = .i32 x :=
        fun hv hv' hx ↦ (update_value_of_ne hv).trans (hcounted hv' hx)
      -- the increment behind the load
      have hbehind : ∀ {v : ValueId} {x : BitVec 32}, v ≠ loaded.value → v ≠ incremented →
          locals (.value v) = .i32 x → Function.update (Function.update locals (.value loaded.value)
            (.i32 w)) (.value incremented) (.i32 (i + 1#32)) (.value v) = .i32 x :=
        fun hv hv' hx ↦ (update_value_of_ne hv').trans (hread hv hx)
      rw [Option.bind_some]
      cases hstore : m.store32 (d + i * 4#32).toNat w with
      | none =>
          rcases hcopy.order with horder | horder | horder <;> dsimp only <;> rw [horder]
          · exact .add hemitIncrement hindex hstep (.load hcopy.emitLoad
              (hcounted hsourceIncremented hsource) (hcounted hindexIncremented hindex) hload
              (.store_traps hcopy.emitStore
                (hfront hdestinationLoaded hdestinationIncremented hdestination)
                (hfront hindexLoaded hindexIncremented hindex) (Function.update_self _ _ _) hstore
                .nil))
          · exact .load hcopy.emitLoad hsource hindex hload (.add hemitIncrement
              (hread hindexLoaded hindex) (hread hstepLoaded hstep) (.store_traps hcopy.emitStore
                (hbehind hdestinationLoaded hdestinationIncremented hdestination)
                (hbehind hindexLoaded hindexIncremented hindex)
                ((update_value_of_ne hne).trans (Function.update_self _ _ _)) hstore .nil))
          · exact .load hcopy.emitLoad hsource hindex hload (.store_traps hcopy.emitStore
              (hread hdestinationLoaded hdestination) (hread hindexLoaded hindex)
              (Function.update_self _ _ _) hstore (.cons hemitIncrement .nil))
      | some m' =>
          have hother : ∀ v, v ∉ block.instructions.flatMap (·.defs) →
              v ≠ loaded.value ∧ v ≠ incremented := fun v hv ↦
            ⟨fun h ↦ hv (h ▸ hloadedDef), fun h ↦ hv (h ▸ hincrementedDef)⟩
          dsimp only
          rcases hcopy.order with horder | horder | horder
          · refine ⟨Function.update (Function.update locals (.value incremented) (.i32 (i + 1#32)))
              (.value loaded.value) (.i32 w), ?_, ?_, fun v hv ↦ ?_⟩
            · rw [horder]
              exact .add hemitIncrement hindex hstep (.load hcopy.emitLoad
                (hcounted hsourceIncremented hsource) (hcounted hindexIncremented hindex) hload
                (.store hcopy.emitStore
                  (hfront hdestinationLoaded hdestinationIncremented hdestination)
                  (hfront hindexLoaded hindexIncremented hindex) (Function.update_self _ _ _)
                  hstore .nil))
            · exact (update_value_of_ne hne.symm).trans (Function.update_self _ _ _)
            · exact (update_value_of_ne (hother v hv).1).trans (update_value_of_ne (hother v hv).2)
          · refine ⟨Function.update (Function.update locals (.value loaded.value) (.i32 w))
              (.value incremented) (.i32 (i + 1#32)), ?_, Function.update_self _ _ _,
              fun v hv ↦ ?_⟩
            · rw [horder]
              exact .load hcopy.emitLoad hsource hindex hload (.add hemitIncrement
                (hread hindexLoaded hindex) (hread hstepLoaded hstep) (.store hcopy.emitStore
                  (hbehind hdestinationLoaded hdestinationIncremented hdestination)
                  (hbehind hindexLoaded hindexIncremented hindex)
                  ((update_value_of_ne hne).trans (Function.update_self _ _ _)) hstore .nil))
            · exact (update_value_of_ne (hother v hv).2).trans (update_value_of_ne (hother v hv).1)
          · refine ⟨Function.update (Function.update locals (.value loaded.value) (.i32 w))
              (.value incremented) (.i32 (i + 1#32)), ?_, Function.update_self _ _ _,
              fun v hv ↦ ?_⟩
            · rw [horder]
              exact .load hcopy.emitLoad hsource hindex hload (.store hcopy.emitStore
                (hread hdestinationLoaded hdestination) (hread hindexLoaded hindex)
                (Function.update_self _ _ _) hstore (.add hemitIncrement
                  (hread hindexLoaded hindex) (hread hstepLoaded hstep) .nil))
            · exact (update_value_of_ne (hother v hv).2).trans (update_value_of_ne (hother v hv).1)

/-! ## Fills -/

/-- The body of a fill, with the instruction that counts in any place. -/
structure FillBody (f : KirFunction) (layout : WasmStructLayout) (block : KirBlock)
    (index value : ValueId) (b : BulkBody) (store : KirInstruction) (destination : ValueId) :
    Prop where
  order : block.instructions = [b.increment, store] ∨ block.instructions = [store, b.increment]
  noConst : ∀ i ∈ block.instructions, i.kind.constIntText? = none
  stored : b.storeValue = some value
  destinationParam : (block.params.map (·.value))[b.destinationSlot]? = some destination
  emitStore : f.scalarType? value = some b.elementType →
    f.emitInstruction layout store = some (KirFunction.elementAddress destination index ++
      [.localGet (.value value), .i32Store])
  word : isWasmWord b.elementType = true

theorem bulkFillBody_eq_some {block : KirBlock} {index : ValueId} {b : BulkBody}
    (h : bulkFillBody block index = some b) :
    ∃ value store destination, FillBody f layout block index value b store destination := by
  simp only [bulkFillBody, bind, Option.bind_eq_some_iff, Option.guard_eq_some', pure,
    Option.some.injEq, Prod.exists] at h
  obtain ⟨-, hlength, store, hstore, increment, hincrement, place, value, hplace,
    destinationSlot, storeIndex, element, hdestination, -, ⟨rfl, hword⟩, rfl⟩ := h
  obtain ⟨destination, hdestinationParam, haddress⟩ :=
    (indexedPointerSlot_eq_some layout hdestination).address hword
  have hisWord := (isWasmWord_of_supported layout hword).1
  have horder := two_instructions hlength hstore hincrement fun _ ↦ not_binary_of_store
  refine ⟨value, store, destination, horder, fun i hi ↦ ?_, rfl, hdestinationParam,
    fun htype ↦ KirFunction.emit_store (KirInstructionKind.stored?_eq_some hplace) htype hisWord
      haddress, hisWord⟩
  have hcases : i = increment ∨ i = store := by
    rcases horder with h | h <;> rw [h] at hi <;>
      simp only [List.mem_cons, List.not_mem_nil, or_false] at hi <;> tauto
  rcases hcases with rfl | rfl
  · have hbinary := List.find?_some hincrement
    exact noConst_of_binary hbinary
  · rw [KirInstructionKind.stored?_eq_some hplace]
    rfl

theorem fill_runs {block : KirBlock} {index step incremented value destination : ValueId}
    {b : BulkBody} {store : KirInstruction} {indexSlot : Nat} {consts : WordConsts} {w : BitVec 32}
    (hfill : FillBody f layout block index value b store destination)
    (hcounts : BodyCounts f layout block consts indexSlot index step incremented b.increment)
    (htype : f.scalarType? value = some b.elementType) (hconst : (value, w) ∈ consts) :
    RunsBody f layout block consts indexSlot b.destinationSlot incremented (fillWord w) := by
  intro locals m words i d hconsts hwords hi hd
  have hdestination := hwords.get hfill.destinationParam hd
  have hindex := hwords.get hcounts.indexParam hi
  have hstep : locals (.value step) = .i32 1#32 := hconsts _ hcounts.constant
  have hvalue : locals (.value value) = .i32 w := hconsts _ hconst
  have hincrementedDef : incremented ∈ block.instructions.flatMap (·.defs) := by
    refine List.mem_flatMap.mpr ⟨b.increment, ?_, ?_⟩
    · rcases hfill.order with h | h <;> rw [h] <;> simp
    · rw [hcounts.counts.defs]
      exact List.mem_singleton_self _
  have hparamNe : ∀ {k : Nat} {v : ValueId}, (block.params.map (·.value))[k]? = some v →
      v ≠ incremented := fun hv h ↦
    hcounts.paramDefs _ (List.mem_of_getElem? hv) (h ▸ hincrementedDef)
  have hvalueNe : value ≠ incremented := fun h ↦
    hcounts.constDefs _ hconst (h ▸ hincrementedDef)
  have hcounted : ∀ {v : ValueId} {x : BitVec 32}, v ≠ incremented → locals (.value v) = .i32 x →
      Function.update locals (.value incremented) (.i32 (i + 1#32)) (.value v) = .i32 x :=
    fun hv hx ↦ (update_value_of_ne hv).trans hx
  have hemitIncrement := hcounts.counts.emit
  have hemitStore := hfill.emitStore htype
  rw [fillWord, Option.bind_some]
  cases hstore : m.store32 (d + i * 4#32).toNat w with
  | none =>
      dsimp only
      rcases hfill.order with horder | horder <;> rw [horder]
      · exact .add hemitIncrement hindex hstep (.store_traps hemitStore
          (hcounted (hparamNe hfill.destinationParam) hdestination)
          (hcounted (hparamNe hcounts.indexParam) hindex) (hcounted hvalueNe hvalue) hstore .nil)
      · exact .store_traps hemitStore hdestination hindex hvalue hstore (.cons hemitIncrement .nil)
  | some m' =>
      refine ⟨Function.update locals (.value incremented) (.i32 (i + 1#32)), ?_,
        Function.update_self _ _ _, fun v hv ↦
          update_value_of_ne fun h ↦ hv (h ▸ hincrementedDef)⟩
      rcases hfill.order with horder | horder <;> rw [horder]
      · exact .add hemitIncrement hindex hstep (.store hemitStore
          (hcounted (hparamNe hfill.destinationParam) hdestination)
          (hcounted (hparamNe hcounts.indexParam) hindex) (hcounted hvalueNe hvalue) hstore .nil)
      · exact .store hemitStore hdestination hindex hvalue hstore
          (.add hemitIncrement hindex hstep .nil)

end CalcKernel
