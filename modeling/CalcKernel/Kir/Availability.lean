import CalcKernel.Kir.Definitions
import CalcKernel.Kir.ValueValidation
import Mathlib.Data.Finset.Card

/-!
# Available values

A site is a place of a block: its beginning, or behind one of its instructions.  In a
function that passed validation a value is available where its site comes first on every
path from the entry.
-/

namespace CalcKernel

open Lib

/-! ## Sites -/

/-- The block and the number of its instructions that came before. -/
abbrev Site := BlockId × Nat

def ValueDefinition.site? : ValueDefinition → Option Site
  | .functionParam => none
  | .blockParam block => some (block, 0)
  | .instruction block index => some (block, index + 1)

namespace KirFunction

/-- The site from which a value is there; a parameter is there from the start. -/
def site? (f : KirFunction) (v : ValueId) : Option Site :=
  (f.valueDefinition? v).bind (·.site?)

/-- The first site comes before the second in one block, or its block is on every path to the
other. -/
def Precedes (f : KirFunction) (p q : Site) : Prop :=
  if p.1 = q.1 then p.2 ≤ q.2 else f.entryGraph.Dominates p.1 q.1

/-- The site of the value comes before; parameters are available everywhere. -/
def Available (f : KirFunction) (v : ValueId) (q : Site) : Prop :=
  ∀ p, f.site? v = some p → f.Precedes p q

/-- What the checks of values establish. -/
structure Strict (f : KirFunction) : Prop where
  blocks : f.blockIds.Nodup
  values : f.valueIds.Nodup
  instructions : (f.instructions.map (·.id)).Nodup
  uses : ∀ b ∈ f.blocks, ∀ j i, b.instructions[j]? = some i → ∀ v ∈ i.uses,
    f.Available v (b.id, j)
  ends : ∀ b ∈ f.blocks, ∀ v ∈ b.terminator.uses, f.Available v (b.id, b.instructions.length)
  edges : ∀ b ∈ f.blocks, ∀ edge ∈ b.terminator.edges, ∃ target, f.block? edge.target = some target ∧
    edge.args.length = target.params.length ∧
    ∀ pair ∈ edge.args.zip target.params, f.valueType? pair.1 = some pair.2.typeNode
  binary : ∀ i ∈ f.instructions, ∀ op left right semantics, i.kind = .binary op left right semantics →
    f.valueType? left = (i.results.head?).map (·.typeNode) ∧
      f.valueType? right = (i.results.head?).map (·.typeNode)

variable {f : KirFunction} {b c : KirBlock} {i : KirInstruction} {v : ValueId} {j : Nat}
variable {p q r : Site}

theorem valueDefinitions_keys (f : KirFunction) :
    f.valueDefinitions.map Prod.fst = f.valueIds := by
  have hindexed : ∀ l : List KirInstruction,
      (l.zipIdx.flatMap fun x ↦ x.1.defs) = l.flatMap (·.defs) := by
    intro l
    rw [← List.flatMap_map Prod.fst KirInstruction.defs, List.zipIdx_map_fst]
  have hblock : ∀ b : KirBlock, b.valueDefinitions.map Prod.fst =
      b.params.map (·.value) ++ b.instructions.flatMap (·.defs) := by
    intro b
    simp [KirBlock.valueDefinitions, List.map_flatMap, Function.comp_def, hindexed]
  simp [valueDefinitions, valueIds, List.map_flatMap, hblock, Function.comp_def]

theorem valueDefinition?_of_mem (hvalues : f.valueIds.Nodup) {d : ValueDefinition}
    (h : (v, d) ∈ f.valueDefinitions) : f.valueDefinition? v = some d :=
  lookup_of_mem (by rwa [valueDefinitions_keys]) h

theorem valueDefinition?_of_param (hvalues : f.valueIds.Nodup)
    (hv : v ∈ f.params.map (·.value)) : f.valueDefinition? v = some .functionParam := by
  obtain ⟨p, hp, rfl⟩ := List.mem_map.mp hv
  exact valueDefinition?_of_mem hvalues (List.mem_append_left _
    (List.mem_map_of_mem (f := fun p : KirParam ↦ (p.value, ValueDefinition.functionParam)) hp))

theorem valueDefinition?_of_blockParam (hvalues : f.valueIds.Nodup) (hb : b ∈ f.blocks)
    (hv : v ∈ b.params.map (·.value)) : f.valueDefinition? v = some (.blockParam b.id) := by
  obtain ⟨p, hp, rfl⟩ := List.mem_map.mp hv
  refine valueDefinition?_of_mem hvalues (List.mem_append_right _ (List.mem_flatMap.mpr ⟨b, hb, ?_⟩))
  exact List.mem_append_left _ (List.mem_map_of_mem
    (f := fun p : KirBlockParam ↦ (p.value, ValueDefinition.blockParam b.id)) hp)

theorem valueDefinition?_of_result (hvalues : f.valueIds.Nodup) (hb : b ∈ f.blocks)
    (hi : b.instructions[j]? = some i) (hv : v ∈ i.defs) :
    f.valueDefinition? v = some (.instruction b.id j) := by
  refine valueDefinition?_of_mem hvalues (List.mem_append_right _ (List.mem_flatMap.mpr ⟨b, hb, ?_⟩))
  refine List.mem_append_right _ (List.mem_flatMap.mpr ⟨(i, j), ?_, List.mem_map_of_mem hv⟩)
  exact List.mk_mem_zipIdx_iff_getElem?.mpr hi

theorem site?_of_blockParam (hvalues : f.valueIds.Nodup) (hb : b ∈ f.blocks)
    (hv : v ∈ b.params.map (·.value)) : f.site? v = some (b.id, 0) := by
  rw [site?, valueDefinition?_of_blockParam hvalues hb hv]
  rfl

theorem site?_of_result (hvalues : f.valueIds.Nodup) (hb : b ∈ f.blocks)
    (hi : b.instructions[j]? = some i) (hv : v ∈ i.defs) : f.site? v = some (b.id, j + 1) := by
  rw [site?, valueDefinition?_of_result hvalues hb hi hv]
  rfl

/-- Where a value is there from. -/
theorem site?_cases (h : f.site? v = some p) :
    (∃ b ∈ f.blocks, v ∈ b.params.map (·.value) ∧ p = (b.id, 0)) ∨
      ∃ b ∈ f.blocks, ∃ j i, b.instructions[j]? = some i ∧ v ∈ i.defs ∧ p = (b.id, j + 1) := by
  obtain ⟨d, hd, hsite⟩ := Option.bind_eq_some_iff.mp h
  rcases List.mem_append.mp (mem_of_lookup hd) with hparam | hblock
  · obtain ⟨_, _, heq⟩ := List.mem_map.mp hparam
    cases heq
    cases hsite
  · obtain ⟨b, hb, hmem⟩ := List.mem_flatMap.mp hblock
    rcases List.mem_append.mp hmem with hparam | hresult
    · obtain ⟨param, hp, heq⟩ := List.mem_map.mp hparam
      cases heq
      cases hsite
      exact Or.inl ⟨b, hb, List.mem_map_of_mem hp, rfl⟩
    · obtain ⟨⟨i, j⟩, hi, hmem⟩ := List.mem_flatMap.mp hresult
      obtain ⟨_, hv, heq⟩ := List.mem_map.mp hmem
      cases heq
      cases hsite
      exact Or.inr ⟨b, hb, j, i, List.mk_mem_zipIdx_iff_getElem?.mp hi, hv, rfl⟩

/-! ## The order of sites -/

theorem entryGraph_dominates {x y : BlockId} (h : f.flowGraph.Dominates x y) :
    f.entryGraph.Dominates x y :=
  fun r hroot hr hpath ↦ h r (Or.inl hroot) hr hpath

theorem entryGraph_edge (hb : b ∈ f.blocks) (hc : c ∈ f.blocks) {edge : KirEdge}
    (hedge : edge ∈ b.terminator.edges) (htarget : edge.target = c.id) :
    f.entryGraph.edge b.id c.id :=
  ⟨mem_flowPredecessors.mpr ⟨b, hb, rfl, htarget ▸ List.mem_map_of_mem hedge⟩,
    List.mem_map_of_mem hc⟩

theorem Precedes.dominates (h : f.Precedes p q) : f.entryGraph.Dominates p.1 q.1 := by
  unfold Precedes at h
  split at h
  · rename_i heq
    rw [heq]
    exact FlowGraph.Dominates.refl _ _
  · exact h

/-- What comes behind an instruction comes behind the ones before it. -/
theorem Precedes.of_later {block : BlockId} (h : f.Precedes (block, j + 1) q) :
    f.Precedes (block, j) q := by
  unfold Precedes at h ⊢
  dsimp only at h ⊢
  split
  · rename_i heq
    rw [if_pos heq] at h
    omega
  · rename_i hne
    rwa [if_neg hne] at h

theorem Precedes.trans (hreach : f.entryGraph.Reachable q.1) (hpq : f.Precedes p q)
    (hqr : f.Precedes q r) : f.Precedes p r := by
  by_cases hpr : p.1 = r.1
  · have hsame : q.1 = r.1 := by
      have hdom := hpq.dominates
      rw [hpr] at hdom
      exact (FlowGraph.Dominates.antisymm hreach hdom hqr.dominates).symm
    unfold Precedes at hpq hqr ⊢
    rw [if_pos (hpr.trans hsame.symm)] at hpq
    rw [if_pos hsame] at hqr
    rw [if_pos hpr]
    exact le_trans hpq hqr
  · rw [Precedes, if_neg hpr]
    exact hpq.dominates.trans hqr.dominates

/-- A site that comes before a later place of its block, or before the block, comes before the
ends of the blocks with an edge to it. -/
theorem Precedes.of_edge (h : f.Precedes p (c.id, 0)) (hstart : p ≠ (c.id, 0))
    (hedge : f.entryGraph.edge b.id c.id) (hend : p.1 = b.id → p.2 ≤ j) :
    f.Precedes p (b.id, j) := by
  have hne : p.1 ≠ c.id := by
    intro heq
    rw [Precedes, if_pos heq] at h
    exact hstart (Prod.ext heq (Nat.le_zero.mp h))
  rw [Precedes, if_neg hne] at h
  unfold Precedes
  split
  · rename_i heq
    exact hend heq
  · exact h.of_edge hne.symm hedge

theorem Precedes.of_next (h : f.Precedes p (b.id, j + 1)) (hne : p ≠ (b.id, j + 1)) :
    f.Precedes p (b.id, j) := by
  unfold Precedes at h ⊢
  split at h
  · rename_i heq
    rw [if_pos heq]
    have hindex : p.2 ≠ j + 1 := fun h ↦ hne (Prod.ext heq h)
    dsimp only at h ⊢
    omega
  · rename_i hne
    rwa [if_neg hne]

/-- What comes before an instruction does not come after it. -/
theorem Precedes.not_later {block : BlockId} (h : f.Precedes p (block, j))
    (hreach : f.entryGraph.Reachable p.1) : ¬ f.Precedes (block, j + 1) p := by
  intro hlater
  have hsame : block = p.1 := FlowGraph.Dominates.antisymm hreach hlater.dominates h.dominates
  rw [Precedes, if_pos hsame.symm] at h
  rw [Precedes, if_pos hsame] at hlater
  dsimp only at h hlater
  omega

/-- The first site comes before the second, and they differ. -/
def Before (f : KirFunction) (p q : Site) : Prop := f.Precedes p q ∧ p ≠ q

theorem Before.not_precedes (h : f.Before p q) (hreach : f.entryGraph.Reachable q.1) :
    ¬ f.Precedes q p := by
  intro hqp
  obtain ⟨hpq, hne⟩ := h
  have hsame : p.1 = q.1 := FlowGraph.Dominates.antisymm hreach hpq.dominates hqp.dominates
  rw [Precedes, if_pos hsame] at hpq
  rw [Precedes, if_pos hsame.symm] at hqp
  exact hne (Prod.ext hsame (le_antisymm hpq hqp))

theorem Before.trans (hreach : f.entryGraph.Reachable q.1) (hpq : f.Before p q)
    (hqr : f.Before q r) : f.Before p r := by
  refine ⟨hpq.1.trans hreach hqr.1, ?_⟩
  rintro rfl
  exact hpq.not_precedes hreach hqr.1

/-! ## The rank of a value -/

open Classical in
/-- The number of sites of values before a site, and one more. -/
noncomputable def siteRank (f : KirFunction) (q : Site) : Nat :=
  ((f.valueIds.filterMap f.site?).toFinset.filter fun p ↦ f.Before p q).card + 1

/-- Parameters have no rank. -/
noncomputable def rank (f : KirFunction) (v : ValueId) : Nat := ((f.site? v).map f.siteRank).getD 0

theorem mem_valueIds_of_site? (h : f.site? v = some p) : v ∈ f.valueIds := by
  obtain ⟨d, hd, -⟩ := Option.bind_eq_some_iff.mp h
  rw [← valueDefinitions_keys]
  exact List.mem_map_of_mem (mem_of_lookup hd)

open Classical in
/-- Going before a value lowers the rank. -/
theorem rank_lt {w : ValueId} (hv : f.site? v = some q) (hreach : f.entryGraph.Reachable q.1)
    (hw : ∀ p, f.site? w = some p → f.Before p q) : f.rank w < f.rank v := by
  rw [rank, rank, hv]
  cases hsite : f.site? w with
  | none => exact Nat.succ_pos _
  | some p =>
      have hbefore := hw p hsite
      have hpreach : f.entryGraph.Reachable p.1 := by
        obtain ⟨e, hroot, hpath⟩ := hreach
        exact ⟨e, hroot, (hbefore.1.dominates.split hroot hpath).1⟩
      refine Nat.succ_lt_succ (Finset.card_lt_card ⟨fun s hs ↦ ?_, fun hsub ↦ ?_⟩)
      · obtain ⟨hmem, hs⟩ := Finset.mem_filter.mp hs
        exact Finset.mem_filter.mpr ⟨hmem, hs.trans hpreach hbefore⟩
      · have hmem : p ∈ (f.valueIds.filterMap f.site?).toFinset :=
          List.mem_toFinset.mpr (List.mem_filterMap.mpr ⟨w, mem_valueIds_of_site? hsite, hsite⟩)
        exact (Finset.mem_filter.mp (hsub (Finset.mem_filter.mpr ⟨hmem, hbefore⟩))).2.2 rfl

/-- What comes before an instruction comes before its results. -/
theorem Precedes.before_next {block : BlockId} (h : f.Precedes p (block, j)) :
    f.Before p (block, j + 1) := by
  unfold Precedes at h
  dsimp only at h
  constructor
  · unfold Precedes
    dsimp only
    split
    · rename_i heq
      rw [if_pos heq] at h
      omega
    · rename_i hne
      rwa [if_neg hne] at h
  · rintro rfl
    rw [if_pos rfl] at h
    omega

/-- Operands have a lower rank than results. -/
theorem Strict.rank_use (hf : f.Strict) (hb : b ∈ f.blocks) (hi : i ∈ b.instructions) {u : ValueId}
    (hv : v ∈ i.defs) (hu : u ∈ i.uses) (hreach : f.entryGraph.Reachable b.id) :
    f.rank u < f.rank v := by
  obtain ⟨j, hj⟩ := List.mem_iff_getElem?.mp hi
  exact rank_lt (site?_of_result hf.values hb hj hv) hreach fun p hp ↦
    (hf.uses b hb j i hj u hu p hp).before_next

/-! ## What validation establishes -/

theorem recordedType?_eq (hvalues : f.valueIds.Nodup) (v : ValueId) :
    f.recordedType? v = f.valueType? v := by
  have hnodup : (f.valueTypes.reverse.map Prod.fst).Nodup := by
    rw [List.map_reverse, List.nodup_reverse, valueTypes_keys]
    exact hvalues
  cases h : f.valueType? v with
  | none =>
      cases hlast : f.recordedType? v with
      | none => rfl
      | some type =>
          have hmem := List.mem_reverse.mp (mem_of_lookup hlast)
          rw [valueType?_of_mem hvalues hmem] at h
          cases h
  | some type => exact lookup_of_mem hnodup (List.mem_reverse.mpr (mem_of_lookup h))

theorem available_of_errors {useBlock : BlockId} {useIndex : Nat}
    (h : valueUseErrors f f.computeKirDominators useBlock useIndex v = []) (hb : useBlock ∈ f.blockIds)
    (hdefs : ∀ p, f.site? v = some p → p.1 ∈ f.blockIds) : f.Available v (useBlock, useIndex) := by
  obtain ⟨entry, hentry⟩ : ∃ entry, f.entryId? = some entry := by
    cases hblocks : f.blocks with
    | nil => simp [blockIds, hblocks] at hb
    | cons b blocks => exact ⟨b.id, by simp [entryId?, hblocks]⟩
  unfold valueUseErrors at h
  cases hd : f.valueDefinition? v with
  | none =>
      rw [hd] at h
      cases h
  | some d =>
      rw [hd] at h
      dsimp only at h
      split at h
      case isFalse => cases h
      rename_i hreaches
      intro p hp
      have hblock := hdefs p hp
      rw [site?, hd] at hp
      cases d with
      | functionParam => cases hp
      | blockParam block =>
          cases hp
          unfold Precedes
          split
          · exact Nat.zero_le _
          · rename_i hne
            rw [ValueDefinition.reaches, Bool.or_eq_true, decide_eq_true_eq] at hreaches
            exact entryGraph_dominates ((computeKirDominators_iff hentry hblock hb).mp
              (hreaches.resolve_left hne))
      | instruction block index =>
          cases hp
          unfold Precedes
          rw [ValueDefinition.reaches] at hreaches
          split at hreaches
          · rename_i heq
            rw [if_pos heq]
            exact of_decide_eq_true hreaches
          · rename_i hne
            rw [if_neg hne]
            exact entryGraph_dominates ((computeKirDominators_iff hentry hblock hb).mp hreaches)

theorem site?_block (h : f.site? v = some p) : p.1 ∈ f.blockIds := by
  rcases site?_cases h with ⟨b, hb, _, rfl⟩ | ⟨b, hb, _, _, _, _, rfl⟩ <;>
    exact List.mem_map_of_mem hb

theorem edge_of_errors (hblocks : f.blockIds.Nodup) (hvalues : f.valueIds.Nodup) {edge : KirEdge}
    (h : edgeValueErrors f b edge = []) (hdefined : ∀ v ∈ edge.args, (f.valueType? v).isSome) :
    ∃ target, f.block? edge.target = some target ∧ edge.args.length = target.params.length ∧
      ∀ pair ∈ edge.args.zip target.params, f.valueType? pair.1 = some pair.2.typeNode := by
  unfold edgeValueErrors at h
  cases hfind : f.blocks.reverse.find? (·.id = edge.target) with
  | none =>
      rw [hfind] at h
      cases h
  | some target =>
      have hid : target.id = edge.target := by simpa using List.find?_some hfind
      have htarget : f.block? edge.target = some target := by
        rw [block?, ← hid]
        exact find?_of_mem KirBlock.id hblocks
          (List.mem_reverse.mp (List.mem_of_find?_eq_some hfind))
      rw [hfind] at h
      obtain ⟨harity, htypes⟩ := List.append_eq_nil_iff.mp h
      refine ⟨target, htarget, by simpa using harity, fun (argument, param) hpair ↦ ?_⟩
      have herrors := List.flatMap_eq_nil_iff.mp htypes (argument, param) hpair
      obtain ⟨type, htype⟩ := Option.isSome_iff_exists.mp
        (hdefined argument (List.of_mem_zip hpair).1)
      dsimp only at herrors ⊢
      rw [recordedType?_eq hvalues, htype] at herrors
      rw [htype]
      simpa using herrors

theorem valueType?_of_errors {dominators : Dominators} {useBlock : BlockId} {useIndex : Nat}
    (hvalues : f.valueIds.Nodup) (h : valueUseErrors f dominators useBlock useIndex v = []) :
    (f.valueType? v).isSome := by
  obtain ⟨d, hd⟩ : ∃ d, f.valueDefinition? v = some d := by
    unfold valueUseErrors at h
    cases hd : f.valueDefinition? v with
    | none =>
        rw [hd] at h
        cases h
    | some d => exact ⟨d, rfl⟩
  have hmem : v ∈ f.valueTypes.map Prod.fst := by
    rw [valueTypes_keys, ← valueDefinitions_keys]
    exact List.mem_map_of_mem (f := Prod.fst) (mem_of_lookup hd)
  obtain ⟨⟨_, type⟩, hpair, rfl⟩ := List.mem_map.mp hmem
  rw [valueType?_of_mem hvalues hpair]
  rfl

/-- A function of a module without errors is strict. -/
theorem strict_of_errors {m : KirModule} (h : m.valueErrors = []) (hf : f ∈ m.functions) :
    f.Strict := by
  obtain ⟨hids, hfunctions⟩ := List.append_eq_nil_iff.mp h
  obtain ⟨hids, hinstructions⟩ := List.append_eq_nil_iff.mp hids
  obtain ⟨hvalues, hblocks⟩ := List.append_eq_nil_iff.mp hids
  have hvalues := (List.nodup_flatMap.mp (duplicateErrors_eq_nil.mp hvalues).1).1 f hf
  have hblocks := (List.nodup_flatMap.mp (duplicateErrors_eq_nil.mp hblocks).1).1 f hf
  have hinstructions := (List.nodup_flatMap.mp (duplicateErrors_eq_nil.mp hinstructions).1).1 f hf
  have hchecked : ∀ b ∈ f.blocks, blockValueErrors f f.computeKirDominators b = [] := fun b hb ↦
    List.flatMap_eq_nil_iff.mp (List.flatMap_eq_nil_iff.mp hfunctions f hf) b hb
  have hsites : ∀ {v}, ∀ p, f.site? v = some p → p.1 ∈ f.blockIds := fun p hp ↦ site?_block hp
  have hends : ∀ b ∈ f.blocks, ∀ v ∈ b.terminator.uses,
      valueUseErrors f f.computeKirDominators b.id b.instructions.length v = [] := by
    intro b hb v hv
    obtain ⟨herrors, _⟩ := List.append_eq_nil_iff.mp (hchecked b hb)
    obtain ⟨herrors, _⟩ := List.append_eq_nil_iff.mp herrors
    obtain ⟨_, herrors⟩ := List.append_eq_nil_iff.mp herrors
    exact List.flatMap_eq_nil_iff.mp herrors v hv
  have hindexed : ∀ b ∈ f.blocks, ∀ j i, b.instructions[j]? = some i →
      i.uses.flatMap (valueUseErrors f f.computeKirDominators b.id j) = [] ∧
        instructionTypeErrors f b i j = [] := by
    intro b hb j i hi
    obtain ⟨herrors, _⟩ := List.append_eq_nil_iff.mp (hchecked b hb)
    obtain ⟨herrors, _⟩ := List.append_eq_nil_iff.mp herrors
    obtain ⟨herrors, _⟩ := List.append_eq_nil_iff.mp herrors
    exact List.append_eq_nil_iff.mp (List.flatMap_eq_nil_iff.mp herrors (i, j)
      (List.mk_mem_zipIdx_iff_getElem?.mpr hi))
  refine ⟨hblocks, hvalues, hinstructions, ?_, ?_, ?_, ?_⟩
  · intro b hb j i hi v hv
    exact available_of_errors (List.flatMap_eq_nil_iff.mp (hindexed b hb j i hi).1 v hv)
      (List.mem_map_of_mem hb) hsites
  · exact fun b hb v hv ↦ available_of_errors (hends b hb v hv) (List.mem_map_of_mem hb) hsites
  · intro b hb edge hedge
    obtain ⟨_, herrors⟩ := List.append_eq_nil_iff.mp (hchecked b hb)
    refine edge_of_errors hblocks hvalues (List.flatMap_eq_nil_iff.mp herrors edge hedge) fun v hv ↦ ?_
    exact valueType?_of_errors hvalues (hends b hb v
      (List.mem_append_right _ (List.mem_flatMap.mpr ⟨edge, hedge, hv⟩)))
  · intro i hi op left right semantics hkind
    obtain ⟨b, hb, hi⟩ := mem_instructions.mp hi
    obtain ⟨j, hj⟩ := List.mem_iff_getElem?.mp hi
    obtain ⟨herrors, _⟩ := List.append_eq_nil_iff.mp (hindexed b hb j i hj).2
    rw [hkind] at herrors
    have htypes := (List.append_eq_nil_iff.mp herrors).1
    simpa [recordedType?_eq hvalues] using htypes

end KirFunction

end CalcKernel
