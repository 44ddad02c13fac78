import CalcKernel.Lib.Substitution
import CalcKernel.Kir.ValueValidation

/-!
# Replacing uses

The values a function uses are replaced wherever they are used: in the origins and the byte
intervals of its regions, in operands, places and predicates of instructions, and in the
conditions, results and edge arguments of terminators.  A batch of replacements is carried
out in its order.  Listed with the entry of each value before that of its target, an acyclic
table replaces every use by the end of its chain.
-/

namespace CalcKernel

open Lib

/-! ## Remapping -/

section Remapping

variable (σ : ValueId → ValueId)

/-- `remap_place`. -/
def KirPlace.remap : KirPlace → KirPlace
  | .value v type region => .value (σ v) type region
  | .deref pointer type region => .deref (σ pointer) type region
  | .index base i type region => .index base.remap (σ i) type region
  | .sliceIndex slice i type region => .sliceIndex (σ slice) (σ i) type region
  | .field base name type region => .field base.remap name type region

def KirVersionPredicateConjunct.remap : KirVersionPredicateConjunct → KirVersionPredicateConjunct
  | .tripThreshold v minimum => .tripThreshold (σ v) minimum
  | .addressIntervalsDisjoint left leftCount leftBytes right rightCount rightBytes =>
      .addressIntervalsDisjoint (σ left) (σ leftCount) leftBytes (σ right) (σ rightCount) rightBytes
  | .wasmSliceRange slice start count bytes => .wasmSliceRange (σ slice) (σ start) (σ count) bytes

def KirVectorMemoryAccess.remap (access : KirVectorMemoryAccess) : KirVectorMemoryAccess :=
  { access with slice := σ access.slice, start := σ access.start, stop := σ access.stop }

/-- The `match` of `remap_instruction_values`. -/
def KirInstructionKind.remap : KirInstructionKind → KirInstructionKind
  | .undef slot => .undef slot
  | .constInt value => .constInt value
  | .constFloat value => .constFloat value
  | .constBool value => .constBool value
  | .copy v => .copy (σ v)
  | .cast op v => .cast op (σ v)
  | .binary op left right semantics => .binary op (σ left) (σ right) semantics
  | .compare op left right => .compare op (σ left) (σ right)
  | .unary op operand semantics => .unary op (σ operand) semantics
  | .checkCondition kind args => .checkCondition kind (args.map σ)
  | .call name args => .call name (args.map σ)
  | .runtimeCall intrinsic args => .runtimeCall intrinsic (args.map σ)
  | .guard condition failure => .guard (σ condition) failure
  | .address place => .address (place.remap σ)
  | .load place => .load (place.remap σ)
  | .store place v => .store (place.remap σ) (σ v)
  | .makeSlice data len => .makeSlice (σ data) (σ len)
  | .sliceData slice => .sliceData (σ slice)
  | .sliceLen slice => .sliceLen (σ slice)
  | .subslice slice start stop => .subslice (σ slice) (σ start) (σ stop)
  | .versionPredicate predicate =>
      .versionPredicate { predicate with conjuncts := predicate.conjuncts.map (·.remap σ) }
  | .vectorSplat scalar region => .vectorSplat (σ scalar) region
  | .vectorLoad access region => .vectorLoad (access.remap σ) region
  | .vectorStore access v region => .vectorStore (access.remap σ) (σ v) region
  | .vectorBinary op left right semantics proof region =>
      .vectorBinary op (σ left) (σ right) semantics proof region
  | .vectorCompare op left right region => .vectorCompare op (σ left) (σ right) region
  | .vectorUnary op operand semantics proof region =>
      .vectorUnary op (σ operand) semantics proof region
  | .vectorSelect mask whenTrue whenFalse region =>
      .vectorSelect (σ mask) (σ whenTrue) (σ whenFalse) region
  | .vectorCast op v region => .vectorCast op (σ v) region
  | .vectorInsert vector scalar lane region => .vectorInsert (σ vector) (σ scalar) lane region
  | .vectorExtract vector lane region => .vectorExtract (σ vector) lane region
  | .vectorReduce op vector semantics region => .vectorReduce op (σ vector) semantics region

/-- `remap_instruction_values`. -/
def KirInstruction.remap (i : KirInstruction) : KirInstruction := { i with kind := i.kind.remap σ }

def KirEdge.remap (edge : KirEdge) : KirEdge := { edge with args := edge.args.map σ }

/-- `remap_terminator_values`. -/
def KirTerminator.remap : KirTerminator → KirTerminator
  | .return v memory effectOrder => .return (v.map σ) memory effectOrder
  | .jump edge => .jump (edge.remap σ)
  | .branch condition thenEdge elseEdge =>
      .branch (σ condition) (thenEdge.remap σ) (elseEdge.remap σ)

def KirMemoryRegionOrigin.remap : KirMemoryRegionOrigin → KirMemoryRegionOrigin
  | .conservative => .conservative
  | .parameter v => .parameter (σ v)
  | .rawSlice v => .rawSlice (σ v)
  | .subslice v => .subslice (σ v)

def KirSymbolicByteInterval.remap (interval : KirSymbolicByteInterval) : KirSymbolicByteInterval :=
  { interval with start := σ interval.start, stop := σ interval.stop }

def KirMemoryRegion.remap (region : KirMemoryRegion) : KirMemoryRegion :=
  { region with
    origin := region.origin.remap σ
    byteInterval := region.byteInterval.map (·.remap σ) }

def KirBlock.remap (b : KirBlock) : KirBlock :=
  { b with instructions := b.instructions.map (·.remap σ), terminator := b.terminator.remap σ }

def KirFunction.remap (f : KirFunction) : KirFunction :=
  { f with regions := f.regions.map (·.remap σ), blocks := f.blocks.map (·.remap σ) }

end Remapping

namespace KirFunction

variable (f : KirFunction)

/-- `remap_function_values`. -/
def remapFunctionValues (values : List (ValueId × ValueId)) : KirFunction :=
  f.remap (replaceBy values)

def replaceValueUses (old new : ValueId) : KirFunction := f.remapFunctionValues [(old, new)]

def replaceValueUsesBatch (replacements : List (ValueId × ValueId)) : KirFunction :=
  if replacements.isEmpty then f else f.remapFunctionValues (replacements.foldl compose [])

end KirFunction

/-! ## The uses of a function -/

def KirMemoryRegion.uses (region : KirMemoryRegion) : List ValueId :=
  region.origin.value?.toList ++
    region.byteInterval.toList.flatMap fun interval ↦ [interval.start, interval.stop]

def KirBlock.uses (b : KirBlock) : List ValueId :=
  b.instructions.flatMap (·.uses) ++ b.terminator.uses

/-- The values at all places of use, in order. -/
def KirFunction.uses (f : KirFunction) : List ValueId :=
  f.regions.flatMap (·.uses) ++ f.blocks.flatMap (·.uses)

section Uses

variable {σ τ : ValueId → ValueId}

theorem flatMap_map_uses {α : Type} {g : α → α} {uses : α → List ValueId} (l : List α)
    (h : ∀ x, uses (g x) = (uses x).map σ) :
    (l.map g).flatMap uses = (l.flatMap uses).map σ := by
  rw [List.flatMap_map, List.map_flatMap]
  exact congrArg (l.flatMap ·) (funext h)

theorem KirPlace.uses_remap (place : KirPlace) : (place.remap σ).uses = place.uses.map σ := by
  induction place with
  | value | deref | sliceIndex => rfl
  | index base i type region ih => rw [remap, uses, uses, ih, List.map_append]; rfl
  | field base name type region ih => exact ih

theorem KirVersionPredicateConjunct.uses_remap (conjunct : KirVersionPredicateConjunct) :
    (conjunct.remap σ).uses = conjunct.uses.map σ := by
  cases conjunct <;> rfl

theorem KirInstruction.uses_remap (i : KirInstruction) : (i.remap σ).uses = i.uses.map σ := by
  obtain ⟨id, results, kind, memory, effect⟩ := i
  cases kind with
  | address place | load place => exact place.uses_remap
  | store place v =>
      rw [remap, uses, uses, KirInstructionKind.remap, List.map_append]
      exact congrArg (· ++ [σ v]) place.uses_remap
  | versionPredicate predicate => exact flatMap_map_uses _ KirVersionPredicateConjunct.uses_remap
  | _ => rfl

theorem KirTerminator.uses_remap (t : KirTerminator) : (t.remap σ).uses = t.uses.map σ := by
  cases t with
  | «return» v memory effectOrder => cases v <;> rfl
  | jump edge => simp [remap, uses, edges, KirEdge.remap]
  | branch condition thenEdge elseEdge => simp [remap, uses, edges, KirEdge.remap]

theorem KirMemoryRegion.uses_remap (region : KirMemoryRegion) :
    (region.remap σ).uses = region.uses.map σ := by
  obtain ⟨id, origin, parent, partition, interval⟩ := region
  cases origin <;> cases interval <;> rfl

theorem KirBlock.uses_remap (b : KirBlock) : (b.remap σ).uses = b.uses.map σ := by
  rw [uses, uses, List.map_append]
  exact congrArg₂ (· ++ ·) (flatMap_map_uses _ KirInstruction.uses_remap) b.terminator.uses_remap

theorem KirFunction.uses_remap (f : KirFunction) : (f.remap σ).uses = f.uses.map σ := by
  rw [uses, uses, List.map_append]
  exact congrArg₂ (· ++ ·) (flatMap_map_uses _ KirMemoryRegion.uses_remap)
    (flatMap_map_uses _ KirBlock.uses_remap)

end Uses

/-! ## Remapping twice -/

section Composition

variable (σ τ : ValueId → ValueId)

theorem map_remap {α : Type} {g h k : α → α} (l : List α) (hk : ∀ x, g (h x) = k x) :
    (l.map h).map g = l.map k := by
  rw [List.map_map]
  exact congrArg (l.map ·) (funext hk)

theorem KirPlace.remap_remap (place : KirPlace) :
    (place.remap σ).remap τ = place.remap (τ ∘ σ) := by
  induction place with
  | value | deref | sliceIndex => rfl
  | index base i type region ih => simp only [remap, ih, Function.comp]
  | field base name type region ih => simp only [remap, ih]

theorem KirVersionPredicateConjunct.remap_remap (conjunct : KirVersionPredicateConjunct) :
    (conjunct.remap σ).remap τ = conjunct.remap (τ ∘ σ) := by
  cases conjunct <;> rfl

theorem KirInstruction.remap_remap (i : KirInstruction) :
    (i.remap σ).remap τ = i.remap (τ ∘ σ) := by
  obtain ⟨id, results, kind, memory, effect⟩ := i
  cases kind with
  | address place | load place | store place =>
      simp only [remap, KirInstructionKind.remap, KirPlace.remap_remap, Function.comp]
  | checkCondition | call | runtimeCall =>
      simp only [remap, KirInstructionKind.remap, List.map_map]
  | versionPredicate predicate =>
      simp only [remap, KirInstructionKind.remap,
        map_remap _ (KirVersionPredicateConjunct.remap_remap σ τ)]
  | _ => rfl

theorem KirEdge.remap_remap (edge : KirEdge) : (edge.remap σ).remap τ = edge.remap (τ ∘ σ) := by
  simp only [remap, List.map_map]

theorem KirTerminator.remap_remap (t : KirTerminator) :
    (t.remap σ).remap τ = t.remap (τ ∘ σ) := by
  cases t with
  | «return» v memory effectOrder => cases v <;> rfl
  | jump | branch => simp only [remap, KirEdge.remap_remap, Function.comp]

theorem KirMemoryRegion.remap_remap (region : KirMemoryRegion) :
    (region.remap σ).remap τ = region.remap (τ ∘ σ) := by
  obtain ⟨id, origin, parent, partition, interval⟩ := region
  cases origin <;> cases interval <;> rfl

theorem KirBlock.remap_remap (b : KirBlock) : (b.remap σ).remap τ = b.remap (τ ∘ σ) := by
  simp only [remap, KirTerminator.remap_remap, map_remap _ (KirInstruction.remap_remap σ τ)]

theorem KirFunction.remap_remap (f : KirFunction) : (f.remap σ).remap τ = f.remap (τ ∘ σ) := by
  simp only [remap, map_remap _ (KirMemoryRegion.remap_remap σ τ),
    map_remap _ (KirBlock.remap_remap σ τ)]

end Composition

/-! ## What remapping leaves alone -/

section Identity

theorem KirPlace.remap_id (place : KirPlace) : place.remap (fun v ↦ v) = place := by
  induction place with
  | value | deref | sliceIndex => rfl
  | index base i type region ih => rw [remap, ih]
  | field base name type region ih => rw [remap, ih]

theorem KirVersionPredicateConjunct.remap_id (conjunct : KirVersionPredicateConjunct) :
    conjunct.remap (fun v ↦ v) = conjunct := by
  cases conjunct <;> rfl

theorem map_remap_id {α : Type} {g : α → α} (l : List α) (hg : ∀ x, g x = x) : l.map g = l :=
  (List.map_congr_left fun x _ ↦ hg x).trans l.map_id'

theorem KirInstruction.remap_id (i : KirInstruction) : i.remap (fun v ↦ v) = i := by
  obtain ⟨id, results, kind, memory, effect⟩ := i
  cases kind with
  | address place | load place | store place =>
      simp only [remap, KirInstructionKind.remap, KirPlace.remap_id]
  | checkCondition | call | runtimeCall =>
      simp only [remap, KirInstructionKind.remap, List.map_id']
  | versionPredicate predicate =>
      simp only [remap, KirInstructionKind.remap,
        map_remap_id _ KirVersionPredicateConjunct.remap_id]
  | _ => rfl

theorem KirTerminator.remap_id (t : KirTerminator) : t.remap (fun v ↦ v) = t := by
  cases t with
  | «return» v memory effectOrder => cases v <;> rfl
  | jump | branch => simp only [remap, KirEdge.remap, List.map_id']

theorem KirMemoryRegion.remap_id (region : KirMemoryRegion) :
    region.remap (fun v ↦ v) = region := by
  obtain ⟨id, origin, parent, partition, interval⟩ := region
  cases origin <;> cases interval <;> rfl

theorem KirBlock.remap_id (b : KirBlock) : b.remap (fun v ↦ v) = b := by
  simp only [remap, KirTerminator.remap_id, map_remap_id _ KirInstruction.remap_id]

theorem KirFunction.remap_id (f : KirFunction) : f.remap (fun v ↦ v) = f := by
  simp only [remap, map_remap_id _ KirMemoryRegion.remap_id, map_remap_id _ KirBlock.remap_id]

end Identity

theorem KirFunction.valueDefinitions_remap (σ : ValueId → ValueId) (f : KirFunction) :
    (f.remap σ).valueDefinitions = f.valueDefinitions := by
  have hblock : ∀ b : KirBlock, (b.remap σ).valueDefinitions = b.valueDefinitions := by
    intro b
    have hzip : (b.instructions.map (KirInstruction.remap σ)).zipIdx =
        b.instructions.zipIdx.map (Prod.map (KirInstruction.remap σ) fun n ↦ n) := List.zipIdx_map
    simp only [KirBlock.valueDefinitions, KirBlock.remap, hzip, List.flatMap_map]
    rfl
  simp only [valueDefinitions, remap, List.flatMap_map, hblock]

/-! ## The batch -/

namespace KirFunction

variable {f : KirFunction} {l l' : List (ValueId × ValueId)}

theorem replaceValueUsesBatch_eq (f : KirFunction) (l : List (ValueId × ValueId)) :
    f.replaceValueUsesBatch l = f.remap (replaceInTurn l) := by
  have hcomposed : replaceBy (l.foldl compose []) = replaceInTurn l := by
    funext v
    exact replaceBy_foldl_compose l [] v
  unfold replaceValueUsesBatch remapFunctionValues
  rw [hcomposed]
  split
  · rename_i hempty
    rw [List.isEmpty_iff.mp hempty]
    exact f.remap_id.symm
  · rfl

theorem replaceValueUses_eq (f : KirFunction) (p : ValueId × ValueId) :
    f.replaceValueUses p.1 p.2 = f.remap fun v ↦ replaceOne v p := by
  have hsingle : replaceBy [p] = fun v ↦ replaceOne v p := by
    funext v
    exact replaceBy_compose [] p v
  rw [replaceValueUses, remapFunctionValues, hsingle]

/-- A batch is its replacements one after the other, also with repeated or cyclic ones. -/
theorem replaceValueUsesBatch_foldl (f : KirFunction) (l : List (ValueId × ValueId)) :
    f.replaceValueUsesBatch l = l.foldl (fun f p ↦ f.replaceValueUses p.1 p.2) f := by
  rw [replaceValueUsesBatch_eq]
  induction l generalizing f with
  | nil => exact f.remap_id
  | cons p l ih =>
      rw [List.foldl_cons, ← ih, replaceValueUses_eq, remap_remap]
      rfl

/-- Every use is replaced, and nothing else changes. -/
structure UsesReplaced (σ : ValueId → ValueId) (f f' : KirFunction) : Prop where
  uses : f'.uses = f.uses.map σ
  definitions : f'.valueDefinitions = f.valueDefinitions
  rest : f'.remap (fun _ ↦ 0) = f.remap fun _ ↦ 0

theorem usesReplaced_remap (σ : ValueId → ValueId) (f : KirFunction) :
    UsesReplaced σ f (f.remap σ) where
  uses := f.uses_remap
  definitions := f.valueDefinitions_remap σ
  rest := f.remap_remap σ _

end KirFunction

/-- An acyclic table can be listed in chain order.  In any such order the batch replaces every use
by the end of its chain, so that no mapped value is used any more, and the result is the same; in
other orders some value is not replaced by the end of its chain. -/
theorem replaceValueUsesBatch_chains {l : List (ValueId × ValueId)}
    (hkeys : (l.map Prod.fst).Nodup) (hacyclic : Acyclic l) :
    (∃ listed, listed.Perm l ∧ ChainOrdered listed) ∧
    ∃ σ : ValueId → ValueId, (∀ v, ChainEnd l v (σ v)) ∧
      ∀ listed, listed.Perm l →
        ((∀ v, ChainEnd l v (replaceInTurn listed v)) ↔ ChainOrdered listed) ∧
        (ChainOrdered listed → ∀ f : KirFunction,
          f.replaceValueUsesBatch listed = f.remap σ ∧
          KirFunction.UsesReplaced σ f (f.replaceValueUsesBatch listed) ∧
          ∀ v ∈ (f.replaceValueUsesBatch listed).uses, v ∉ l.map Prod.fst) := by
  obtain ⟨first, hfirst, hordered⟩ := hacyclic.exists_ordered
  have hends : ∀ v, ChainEnd l v (replaceInTurn first v) :=
    fun v ↦ (hordered.chainEnd v).perm hfirst
  refine ⟨⟨first, hfirst, hordered⟩, replaceInTurn first, hends, fun listed hperm ↦ ⟨?_, ?_⟩⟩
  · rw [chainOrdered_iff ((hperm.map Prod.fst).nodup_iff.mpr hkeys)]
    exact forall_congr' fun v ↦ ⟨fun h ↦ h.perm hperm.symm, fun h ↦ h.perm hperm⟩
  · intro hlisted f
    have hsame : replaceInTurn listed = replaceInTurn first := by
      funext v
      exact ((hlisted.chainEnd v).perm hperm).unique hkeys (hends v)
    rw [f.replaceValueUsesBatch_eq, hsame]
    refine ⟨rfl, f.usesReplaced_remap _, fun v hv ↦ ?_⟩
    rw [f.uses_remap] at hv
    obtain ⟨w, -, rfl⟩ := List.mem_map.mp hv
    exact (hends w).last

/-- `fn pick(a, b, c) { return a; }`, as KIR. -/
def returnFirst : KirFunction :=
  ⟨0, "pick", true, [⟨0, "a", .primitive .u32⟩, ⟨1, "b", .primitive .u32⟩, ⟨2, "c", .primitive .u32⟩],
    .primitive .u32, [], [], [], [⟨0, "bb0", [], [], [], .return (some 0) [] 0⟩]⟩

theorem acyclic_chain : Acyclic [((0 : ValueId), (1 : ValueId)), (1, 2)] :=
  acyclic_of_rank (fun v ↦ v) (by decide)

/-- In chain order `a` becomes `c`. -/
theorem replaceValueUsesBatch_chains_pick :
    (returnFirst.replaceValueUsesBatch [(0, 1), (1, 2)]).uses = [2] ∧
      ∀ v ∈ (returnFirst.replaceValueUsesBatch [(0, 1), (1, 2)]).uses, v ∉ [0, 1] := by
  obtain ⟨-, σ, -, hlisted⟩ := replaceValueUsesBatch_chains (by decide) acyclic_chain
  have hordered : ChainOrdered [((0 : ValueId), (1 : ValueId)), (1, 2)] :=
    ⟨by decide, by decide⟩
  exact ⟨by decide, ((hlisted _ (.refl _)).2 hordered returnFirst).2.2⟩

/-- The same table the other way round leaves a use of `b`, which has a replacement. -/
theorem replaceValueUsesBatch_unordered :
    ∃ l listed : List (ValueId × ValueId), (l.map Prod.fst).Nodup ∧ Acyclic l ∧ listed.Perm l ∧
      returnFirst.replaceValueUsesBatch listed ≠ returnFirst.replaceValueUsesBatch l ∧
      ∃ v ∈ (returnFirst.replaceValueUsesBatch listed).uses, v ∈ l.map Prod.fst :=
  ⟨[(0, 1), (1, 2)], [(1, 2), (0, 1)], by decide, acyclic_chain, by decide, by decide, 1, by decide⟩

end CalcKernel
