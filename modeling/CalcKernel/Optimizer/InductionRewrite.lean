import CalcKernel.Optimizer.InductionEqual
import CalcKernel.Optimizer.InductionSimplify

/-!
# What the checks of the replacements establish

The prepared copies each stand for one parameter of one block, with a source in the same
block that an accepted certificate pairs it with, and have identities of their own.  Seen
from a block, its copies are sorted, so the source of one is a parameter that is kept or the
result of an earlier copy.
-/

namespace CalcKernel

open Lib

/-! ## Prepared copies -/

/-- The copy replaces a parameter of a block by a source that a certificate pairs it with. -/
structure PreparedCopy.Replaces (p : PreparedCopy) (m : KirModule) (f : KirFunction) (b : KirBlock)
    (param : KirBlockParam) (source : ValueId) : Prop where
  function_mem : f ∈ m.functions
  function_id : f.id = p.function
  block_mem : b ∈ f.blocks
  block_id : b.id = p.block
  place : b.params[p.index]? = some param
  instruction : p.instruction =
    ⟨p.instruction.id, [⟨param.value, param.typeNode⟩], .copy source, none, none⟩
  source_mem : source ∈ b.params.map (·.value)
  certificate : ∃ pairs, (source, param.value) ∈ pairs ∧
    ∀ q ∈ pairs, f.pairMatches pairs q.1 q.2 = true

/-- The copies replace different parameters, under new identities. -/
structure PreparedCopies (m : KirModule) (prepared : List PreparedCopy) : Prop where
  replaces : ∀ p ∈ prepared, ∃ f b param source, p.Replaces m f b param source
  places : (prepared.map fun p ↦ (p.function, p.block, p.index)).Nodup
  ids : (prepared.map (·.instruction.id)).Nodup
  fresh : ∀ p ∈ prepared, m.firstFreeInstruction ≤ p.instruction.id

theorem PreparedCopies.nil (m : KirModule) : PreparedCopies m [] :=
  ⟨by simp, List.nodup_nil, List.nodup_nil, by simp⟩

section Checks

variable {m : KirModule} {certificates : List InductionCertificate}

theorem InductionCertificate.pairs_of_error {id : Nat} {c : InductionCertificate}
    (h : c.error? m id = none) : ∃ f, m.functions.find? (·.id = c.function) = some f ∧
      ∀ q ∈ c.pairs, f.pairMatches c.pairs q.1 q.2 = true := by
  unfold error? at h
  split at h
  case h_1 => cases h
  rename_i f hf
  split at h
  case isTrue => cases h
  split at h
  case isFalse => cases h
  rename_i hmatches
  refine ⟨f, hf, fun q hq ↦ ?_⟩
  unfold KirFunction.inductionEqualityMatches at hmatches
  split at hmatches
  case h_1 => cases hmatches
  simp only [Bool.and_eq_true, List.all_eq_true] at hmatches
  exact hmatches.1.2 q hq

/-- One replacement adds a copy under the identity of its place. -/
theorem prepareReplacement_spec {first offset : Nat} {r : InductionReplacement}
    {prepared prepared' : List PreparedCopy}
    (hcertificates : ∀ (k : Nat) c, certificates[k]? = some c → c.error? m k = none)
    (h : prepareReplacement m certificates first prepared (r, offset) = .ok prepared') :
    ∃ p, prepared' = prepared ++ [p] ∧ p.function = r.function ∧
      p.instruction.id = first + offset ∧ (∃ f b param source, p.Replaces m f b param source) ∧
      ∀ q ∈ prepared, (q.function, q.block, q.index) ≠ (p.function, p.block, p.index) := by
  unfold prepareReplacement at h
  dsimp only at h
  split at h
  case h_1 => cases h
  rename_i c hc
  split at h
  case isTrue => cases h
  rename_i hmatch
  obtain ⟨hfunction, hpair⟩ := not_or.mp hmatch
  split at h
  case h_1 => cases h
  rename_i f hf
  split at h
  case h_1 => cases h
  rename_i b hb
  split at h
  case h_1 => cases h
  rename_i param index hparam
  split at h
  case isTrue => cases h
  rename_i hsource
  split at h
  case isTrue => cases h
  split at h
  case isTrue => cases h
  rename_i hplaces
  cases h
  obtain ⟨f', hf', hpairs⟩ := InductionCertificate.pairs_of_error (hcertificates _ c hc)
  rw [not_not.mp hfunction] at hf'
  obtain rfl := Option.some.inj (hf.symm.trans hf')
  obtain ⟨hbMem, hbId⟩ := KirFunction.mem_blocks_of_block? hb
  have hvalue := List.find?_some hparam
  have hindex := List.mem_zipIdx_iff_getElem?.mp (List.mem_of_find?_eq_some hparam)
  simp only [decide_eq_true_eq] at hvalue hindex
  obtain ⟨source, hsourceMem, hsourceValue⟩ : ∃ q ∈ b.params, q.value = r.source := by
    simpa using hsource
  have hfId := List.find?_some hf
  simp only [decide_eq_true_eq] at hfId
  refine ⟨_, rfl, hfId, rfl, ⟨f, b, param, r.source, List.mem_of_find?_eq_some hf, rfl, hbMem, rfl,
    hindex, rfl, hsourceValue ▸ List.mem_map_of_mem hsourceMem, c.pairs, ?_, hpairs⟩, ?_⟩
  · rw [hvalue]
    exact not_not.mp hpair
  · intro q hq heq
    refine hplaces (List.any_eq_true.mpr ⟨q, hq, ?_⟩)
    simpa [Prod.ext_iff, and_assoc] using heq

/-- The copies of all replacements. -/
theorem prepareReplacements_spec {first offset : Nat} {replacements : List InductionReplacement}
    {prepared prepared' : List PreparedCopy}
    (hcertificates : ∀ (k : Nat) c, certificates[k]? = some c → c.error? m k = none)
    (hfirst : m.firstFreeInstruction ≤ first + offset) (hprepared : PreparedCopies m prepared)
    (hids : ∀ p ∈ prepared, p.instruction.id < first + offset)
    (h : (replacements.zipIdx offset).foldlM (prepareReplacement m certificates first) prepared =
      .ok prepared') :
    PreparedCopies m prepared' ∧
      ∀ p ∈ prepared', p ∈ prepared ∨ p.function ∈ replacements.map (·.function) := by
  induction replacements generalizing offset prepared with
  | nil =>
      cases h
      exact ⟨hprepared, fun p hp ↦ .inl hp⟩
  | cons r replacements ih =>
      rw [List.zipIdx_cons, List.foldlM_cons] at h
      cases hstep : prepareReplacement m certificates first prepared (r, offset) with
      | error message =>
          rw [hstep] at h
          cases h
      | ok next =>
          rw [hstep] at h
          obtain ⟨p, rfl, hfunction, hid, hreplaces, hplaces⟩ :=
            prepareReplacement_spec hcertificates hstep
          have hnext : first + offset < first + (offset + 1) := Nat.lt_succ_self _
          have hadded : PreparedCopies m (prepared ++ [p]) := by
            refine ⟨?_, ?_, ?_, ?_⟩
            · intro q hq
              rcases List.mem_append.mp hq with hq | hq
              · exact hprepared.replaces q hq
              · exact List.mem_singleton.mp hq ▸ hreplaces
            · rw [List.map_append, List.map_singleton, List.nodup_append]
              refine ⟨hprepared.places, List.nodup_singleton _, ?_⟩
              rintro _ hplace _ hlast
              obtain ⟨q, hq, rfl⟩ := List.mem_map.mp hplace
              rw [List.mem_singleton.mp hlast]
              exact hplaces q hq
            · rw [List.map_append, List.map_singleton, List.nodup_append]
              refine ⟨hprepared.ids, List.nodup_singleton _, ?_⟩
              rintro _ hplace _ hlast
              obtain ⟨q, hq, rfl⟩ := List.mem_map.mp hplace
              rw [List.mem_singleton.mp hlast, hid]
              exact (hids q hq).ne
            · intro q hq
              rcases List.mem_append.mp hq with hq | hq
              · exact hprepared.fresh q hq
              · rw [List.mem_singleton.mp hq, hid]
                exact hfirst
          have hids' : ∀ q ∈ prepared ++ [p], q.instruction.id < first + (offset + 1) := by
            intro q hq
            rcases List.mem_append.mp hq with hq | hq
            · exact (hids q hq).trans hnext
            · rw [List.mem_singleton.mp hq, hid]
              exact hnext
          obtain ⟨hcopies, hfunctions⟩ := ih (hfirst.trans hnext.le) hadded hids' h
          refine ⟨hcopies, fun q hq ↦ ?_⟩
          rcases hfunctions q hq with hq | hq
          · rcases List.mem_append.mp hq with hq | hq
            · exact .inl hq
            · rw [List.mem_singleton.mp hq, List.map_cons, hfunction]
              exact .inr List.mem_cons_self
          · exact .inr (List.mem_cons_of_mem _ hq)

theorem KirModule.simplify_nil (m : KirModule) : m.simplify [] = m := by
  have hself : ∀ {α : Type} function block (l : List α), eraseAt (droppedAt [] function block) l = l :=
    fun function block l ↦ eraseAt_eq_self fun k _ ↦ rfl
  have hedge : ∀ function edge, repairEdge [] function edge = edge := by
    intro function edge
    rw [repairEdge, hself]
  have hblock : ∀ function (b : KirBlock), b.simplify [] function = b := by
    intro function b
    have hterminator : b.terminator.repair [] function = b.terminator := by
      cases b.terminator <;> simp only [KirTerminator.repair, hedge]
    rw [KirBlock.simplify, hself, hterminator]
    rfl
  have hfunction : ∀ f : KirFunction, f.simplify [] = f := by
    intro f
    rw [KirFunction.simplify, List.map_congr_left fun b _ ↦ hblock f.id b, List.map_id']
  rw [simplify, List.map_congr_left fun f _ ↦ hfunction f, List.map_id']

/-- Where replacements are applied, the module is rewritten with prepared copies. -/
theorem applyReplacements_eq_ok {replacements : List InductionReplacement} {n : Nat}
    {m' : KirModule} (h : applyReplacements m certificates replacements = .ok (n, m')) :
    ∃ prepared, PreparedCopies m prepared ∧ m' = m.simplify prepared ∧
      ∀ p ∈ prepared, p.function ∈ replacements.map (·.function) := by
  have hempty := PreparedCopies.nil m
  unfold applyReplacements at h
  split at h
  case h_1 => cases h
  rename_i hnone
  split at h
  · cases h
    exact ⟨[], hempty, m.simplify_nil.symm, by simp⟩
  split at h
  case isTrue => cases h
  split at h
  case isTrue => cases h
  cases hprepared : replacements.zipIdx.foldlM
      (prepareReplacement m certificates m.firstFreeInstruction) [] with
  | error message =>
      rw [hprepared] at h
      cases h
  | ok prepared =>
      rw [hprepared] at h
      cases h
      have hcertificates : ∀ (k : Nat) c, certificates[k]? = some c → c.error? m k = none :=
        fun k c hc ↦
          List.findSome?_eq_none_iff.mp hnone (c, k) (List.mem_zipIdx_iff_getElem?.mpr hc)
      obtain ⟨hcopies, hfunctions⟩ :=
        prepareReplacements_spec hcertificates (le_refl _) hempty (by simp) hprepared
      exact ⟨prepared, hcopies, rfl, fun p hp ↦ (hfunctions p hp).resolve_left List.not_mem_nil⟩

end Checks

/-! ## The copies of a block -/

/-- The copies stand for the dropped parameters of the block, and come in the order of their
results. -/
structure BlockCopies (f : KirFunction) (b : KirBlock) (drop : Nat → Bool)
    (copies : List KirInstruction) : Prop where
  copy : ∀ i ∈ copies, ∃ (k : Nat) (param : KirBlockParam) (source : ValueId), drop k = true ∧
    b.params[k]? = some param ∧
    i = ⟨i.id, [⟨param.value, param.typeNode⟩], .copy source, none, none⟩ ∧
    source ∈ b.params.map (·.value) ∧ ∃ pairs, (source, param.value) ∈ pairs ∧
      ∀ q ∈ pairs, f.pairMatches pairs q.1 q.2 = true
  dropped : ∀ (k : Nat) param, drop k = true → b.params[k]? = some param →
    ∃ i ∈ copies, i.results = [⟨param.value, param.typeNode⟩]
  sorted : copies.Pairwise fun i k ↦ i.firstResult < k.firstResult

/-- Blocks of one identity are one block of one function. -/
theorem KirModule.block_unique {m : KirModule} (hids : (m.functions.flatMap (·.blockIds)).Nodup)
    {f g : KirFunction} {b c : KirBlock} (hf : f ∈ m.functions) (hg : g ∈ m.functions)
    (hb : b ∈ f.blocks) (hc : c ∈ g.blocks) (hid : b.id = c.id) : f = g ∧ b = c := by
  obtain ⟨hnodup, hdisjoint⟩ := List.nodup_flatMap.mp hids
  have hfg : f = g := by
    by_contra hne
    have : Std.Symm (Function.onFun List.Disjoint KirFunction.blockIds) :=
      ⟨fun _ _ h ↦ List.Disjoint.symm h⟩
    have hapart := List.Pairwise.forall hdisjoint hf hg hne
    exact hapart (List.mem_map_of_mem hb) (hid ▸ List.mem_map_of_mem hc)
  subst hfg
  exact ⟨rfl, KirFunction.block_ext (hnodup f hf) hb hc hid⟩

namespace PreparedCopies

variable {m : KirModule} {prepared : List PreparedCopy} {f : KirFunction} {b : KirBlock}

theorem mem_copiesAt {function : FunctionId} {block : BlockId} {i : KirInstruction} :
    i ∈ copiesAt prepared function block ↔
      ∃ p ∈ prepared, p.function = function ∧ p.block = block ∧ p.instruction = i := by
  simp [copiesAt, and_assoc]

/-- A copy at a block of a function replaces a parameter of that block. -/
theorem replaces_at (h : PreparedCopies m prepared)
    (hids : (m.functions.flatMap (·.blockIds)).Nodup) (hf : f ∈ m.functions) (hb : b ∈ f.blocks)
    {p : PreparedCopy} (hp : p ∈ prepared) (hblock : p.block = b.id) :
    ∃ param source, p.Replaces m f b param source := by
  obtain ⟨g, c, param, source, hreplaces⟩ := h.replaces p hp
  obtain ⟨rfl, rfl⟩ := KirModule.block_unique hids hreplaces.function_mem hf hreplaces.block_mem hb
    (hreplaces.block_id.trans hblock)
  exact ⟨param, source, hreplaces⟩

theorem firstResult_eq {p : PreparedCopy} {param : KirBlockParam} {source : ValueId}
    (h : p.Replaces m f b param source) : p.instruction.firstResult = param.value := by
  rw [KirInstruction.firstResult, h.instruction]
  rfl

theorem block (h : PreparedCopies m prepared) (hids : (m.functions.flatMap (·.blockIds)).Nodup)
    (hf : f ∈ m.functions) (hb : b ∈ f.blocks) (hparams : (b.params.map (·.value)).Nodup) :
    BlockCopies f b (droppedAt prepared f.id b.id) (copiesAt prepared f.id b.id) where
  copy := by
    intro i hi
    obtain ⟨p, hp, hfunction, hblock, rfl⟩ := mem_copiesAt.mp hi
    obtain ⟨param, source, hreplaces⟩ := h.replaces_at hids hf hb hp hblock
    refine ⟨p.index, param, source, ?_, hreplaces.place, hreplaces.instruction,
      hreplaces.source_mem, hreplaces.certificate⟩
    exact List.any_eq_true.mpr ⟨p, hp, by simp [hfunction, hblock]⟩
  dropped := by
    intro k param hk hparam
    obtain ⟨p, hp, hplace⟩ := List.any_eq_true.mp hk
    simp only [Bool.and_eq_true, decide_eq_true_eq] at hplace
    obtain ⟨⟨hfunction, hblock⟩, rfl⟩ := hplace
    obtain ⟨param', source, hreplaces⟩ := h.replaces_at hids hf hb hp hblock
    obtain rfl := Option.some.inj (hparam.symm.trans hreplaces.place)
    refine ⟨p.instruction, mem_copiesAt.mpr ⟨p, hp, hfunction, hblock, rfl⟩, ?_⟩
    rw [hreplaces.instruction]
  sorted := by
    have hnodup : ((copiesAt prepared f.id b.id).map (·.firstResult)).Nodup := by
      rw [copiesAt, ((List.perm_insertionSort _ _).map _).nodup_iff, List.map_map]
      refine List.Nodup.map_on ?_ ((List.Nodup.of_map _ h.places).filter _)
      intro p hp q hq heq
      obtain ⟨hp, hpPlace⟩ := List.mem_filter.mp hp
      obtain ⟨hq, hqPlace⟩ := List.mem_filter.mp hq
      simp only [Bool.and_eq_true, decide_eq_true_eq] at hpPlace hqPlace
      obtain ⟨param, source, hpReplaces⟩ := h.replaces_at hids hf hb hp hpPlace.2
      obtain ⟨param', source', hqReplaces⟩ := h.replaces_at hids hf hb hq hqPlace.2
      simp only [Function.comp_apply, firstResult_eq hpReplaces, firstResult_eq hqReplaces] at heq
      have hindex : p.index = q.index := by
        obtain ⟨hlt, -⟩ := List.getElem?_eq_some_iff.mp hpReplaces.place
        rw [← List.length_map (·.value)] at hlt
        refine (List.getElem?_inj hlt hparams).mp ?_
        rw [List.getElem?_map, List.getElem?_map, hpReplaces.place, hqReplaces.place,
          Option.map_some, Option.map_some, heq]
      refine List.inj_on_of_nodup_map h.places hp hq ?_
      rw [hpPlace.1, hqPlace.1, hpPlace.2, hqPlace.2, hindex]
    have hsorted := List.pairwise_insertionSort
      (fun i k : KirInstruction ↦ i.firstResult ≤ k.firstResult)
      ((prepared.filter fun p ↦ p.function = f.id && p.block = b.id).map (·.instruction))
    exact (hsorted.and (List.pairwise_map.mp hnodup)).imp fun ⟨hle, hne⟩ ↦ lt_of_le_of_ne hle hne

end PreparedCopies

end CalcKernel
