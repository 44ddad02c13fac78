import CalcKernel.Kir.PlaceRegions
import CalcKernel.Optimizer.ForwardingSound
import CalcKernel.Optimizer.ProofSteps

/-!
# Strict bounds

A guard of a slice index is safe where a comparison of the index has come out true: the
search removes the taken edge of the branch and must not reach the guard any more.
-/

namespace CalcKernel

open Lib Relation

namespace KirFunction

variable (f : KirFunction)

/-! ## The rule -/

/-- Where a block leads without the taken edge of the branch; the use must not be met. -/
def bypassTargets (branch use id : BlockId) : Option (List BlockId) :=
  if id = use then none
  else (f.block? id).map fun b ↦
    match b.terminator with
    | .return _ _ _ => []
    | .jump edge => [edge.target]
    | .branch _ thenEdge elseEdge =>
        if id = branch then [elseEdge.target] else [elseEdge.target, thenEdge.target]

/-- `taken_edge_dominates`. -/
def takenEdgeDominates (branch use : BlockId) : Bool :=
  match f.blocks.head? with
  | none => false
  | some entry =>
      match search (f.bypassTargets branch use) (1 + 2 * f.blocks.length) [entry.id] with
      | none => false
      | some visited => visited.contains branch

/-- What a block's branch compares its value with, where that value is strictly below. -/
def branchBound? (useBlock : BlockId) (value : ValueId) (b : KirBlock) : Option ValueId :=
  match b.terminator with
  | .branch condition _ _ =>
      (b.instructions.find? fun i ↦ (i.results.head?).map (·.value) = some condition).bind
        fun comparison ↦
          (match comparison.kind with
          | .compare .lt left right => some (left, right)
          | .compare .gt left right => some (right, left)
          | _ => none).bind fun (tested, bound) ↦
            if (f.valueIntegerType value).isSome ∧
                f.valueIntegerType tested = f.valueIntegerType value ∧
                f.valueIntegerType bound = f.valueIntegerType value ∧
                f.forwardedFrom value tested ∧ f.takenEdgeDominates b.id useBlock then
              some bound
            else none
  | _ => none

/-- `strict_upper_bounds`. -/
def strictUpperBounds (instruction : InstructionId) (value : ValueId) : List ValueId :=
  match f.blocks.find? fun b ↦ b.instructions.any (·.id = instruction) with
  | none => []
  | some useBlock => f.blocks.filterMap (f.branchBound? useBlock.id value)

/-- `value_is_slice_len_of`. -/
def valueIsSliceLenOf (value slice : ValueId) : Bool :=
  match f.instructions.find? fun i ↦ i.results.any (·.value = value) with
  | none => false
  | some i =>
      match i.kind with
      | .sliceLen measured =>
          f.forwardedFrom measured slice || f.forwardedFrom slice measured ||
            ((f.forwardingOrigin measured).isSome &&
              f.forwardingOrigin slice = f.forwardingOrigin measured)
      | _ => false

end KirFunction

/-- `affine_is_single_term`. -/
def ContractFactAffineExpression.isSingleTerm (e : ContractFactAffineExpression)
    (expected : ContractFactAffineTerm) : Bool :=
  e.constant = 0 && e.terms = [⟨expected, 1⟩]

/-- `contract_proves_value_at_most_slice_len`. -/
def ContractFactPredicate.provesValueAtMostSliceLen (value slice : ValueId) :
    ContractFactPredicate → Bool
  | .comparison operator left right =>
      (operator = "<=" && left.isSingleTerm (.value value) &&
        right.isSingleTerm (.sliceLength slice)) ||
      (operator = ">=" && left.isSingleTerm (.sliceLength slice) &&
        right.isSingleTerm (.value value))
  | _ => false

def CheckedStep.provesValueAtMostSliceLen (value slice : ValueId) : CheckedStep → Bool
  | .fact (.contract predicate) _ => predicate.provesValueAtMostSliceLen value slice
  | _ => false

/-- `strict_bound_slice_index_is_safe`. -/
def KirFunction.strictBoundSliceIndexIsSafe (f : KirFunction)
    (conditionInstruction : InstructionId) (premises : List CheckedStep) (args : List ValueId) :
    Bool :=
  match args with
  | [slice, index] =>
      f.valueIntegerType index = some .u32 &&
        (f.strictUpperBounds conditionInstruction index).any fun bound ↦
          f.valueIsSliceLenOf ((f.forwardingOrigin bound).getD bound)
              ((f.forwardingOrigin slice).getD slice) ||
            premises.any (·.provesValueAtMostSliceLen ((f.forwardingOrigin bound).getD bound)
              ((f.forwardingOrigin slice).getD slice))
  | _ => false

namespace KirFunction

variable {f : KirFunction} {branch use : BlockId} {b : KirBlock} {edge : KirEdge}

/-! ## The taken edge -/

/-- The blocks met without the taken edge of the branch; the use is none of them. -/
structure Bypass (f : KirFunction) (branch use : BlockId) (R : BlockId → Prop) : Prop where
  entry_mem : ∀ r, f.entryGraph.root r → R r
  branch_mem : R branch
  use_notMem : ¬ R use
  next : ∀ b ∈ f.blocks, R b.id → ∀ edge ∈ b.terminator.edges, ¬ R edge.target →
    b.id = branch ∧ ∃ condition elseEdge, b.terminator = .branch condition edge elseEdge ∧
      R elseEdge.target

theorem bypassTargets_eq_some (hblocks : f.blockIds.Nodup) (hb : b ∈ f.blocks)
    {targets : List BlockId} (h : f.bypassTargets branch use b.id = some targets) :
    b.id ≠ use ∧ ∀ edge ∈ b.terminator.edges, edge.target ∈ targets ∨
      (b.id = branch ∧ ∃ condition elseEdge, b.terminator = .branch condition edge elseEdge ∧
        elseEdge.target ∈ targets) := by
  unfold bypassTargets at h
  split at h
  case isTrue => cases h
  rename_i huse
  rw [block?_of_mem hblocks hb] at h
  refine ⟨huse, fun edge hedge ↦ ?_⟩
  cases hterminator : b.terminator with
  | «return» => simp [hterminator, KirTerminator.edges] at hedge
  | jump e =>
      simp only [hterminator, KirTerminator.edges, List.mem_singleton] at hedge
      simp only [hterminator, Option.map_some, Option.some.injEq] at h
      subst h hedge
      exact Or.inl List.mem_cons_self
  | branch condition thenEdge elseEdge =>
      simp only [hterminator, KirTerminator.edges, List.mem_cons, List.not_mem_nil,
        or_false] at hedge
      simp only [hterminator, Option.map_some, Option.some.injEq] at h
      by_cases hbranch : b.id = branch
      · rw [if_pos hbranch] at h
        subst h
        rcases hedge with rfl | rfl
        · exact Or.inr ⟨hbranch, condition, elseEdge, rfl, List.mem_cons_self⟩
        · exact Or.inl List.mem_cons_self
      · rw [if_neg hbranch] at h
        subst h
        rcases hedge with rfl | rfl <;> simp

theorem bypass_of_takenEdgeDominates (hblocks : f.blockIds.Nodup)
    (h : f.takenEdgeDominates branch use = true) : ∃ R, f.Bypass branch use R := by
  unfold takenEdgeDominates at h
  split at h
  case h_1 => cases h
  rename_i entry hentry
  split at h
  case h_1 => cases h
  rename_i visited hsearch
  obtain ⟨hstart, hclosed⟩ := search_closed hsearch
  refine ⟨(· ∈ visited), ?_, List.contains_iff_mem.mp h, ?_, ?_⟩
  · intro r hr
    have hroot : f.entryId? = some entry.id := by simp [entryId?, hentry]
    rw [← Option.some.inj (hroot.symm.trans hr)]
    exact hstart _ (List.mem_singleton_self _)
  · intro huse
    obtain ⟨_, hnext, _⟩ := hclosed use huse
    simp [bypassTargets] at hnext
  · intro b hb hvisited edge hedge hout
    obtain ⟨targets, htargets, hmem⟩ := hclosed b.id hvisited
    rcases (bypassTargets_eq_some hblocks hb htargets).2 edge hedge with hin | ⟨hid, c, e, ht, he⟩
    · exact absurd (hmem _ hin) hout
    · exact ⟨hid, c, e, ht, hmem _ he⟩

/-- The rounds of the search are enough to run it to its end. -/
theorem bypassSearch_returns (f : KirFunction) (branch use entry : BlockId) :
    ∃ s, searchLoop (f.bypassTargets branch use) (1 + 2 * f.blocks.length) [entry] = some s ∧
      (s.stuck = true ∨ s.pending = []) := by
  refine searchLoop_returns (fun id ↦ if id ∈ f.blockIds then 2 else 0) f.blockIds ?_ ?_ ?_
  · intro id targets htargets
    unfold bypassTargets at htargets
    split at htargets
    · cases htargets
    · obtain ⟨b, hb, rfl⟩ := Option.map_eq_some_iff.mp htargets
      obtain ⟨hmem, rfl⟩ := mem_blocks_of_block? hb
      have hid : b.id ∈ f.blockIds := List.mem_map_of_mem hmem
      rw [if_pos hid]
      split
      · exact Nat.zero_le _
      · exact Nat.le_succ 1
      · split <;> simp
  · exact fun id hid ↦ if_neg hid
  · have hsum : (f.blockIds.map fun id ↦ if id ∈ f.blockIds then 2 else 0) =
        f.blockIds.map fun _ ↦ 2 := List.map_congr_left fun id hid ↦ if_pos hid
    rw [hsum, List.map_const', List.sum_replicate]
    simp [blockIds, Nat.mul_comm]

namespace Bypass

variable {R : BlockId → Prop} (h : f.Bypass branch use R)
include h

/-- The branch is on every path from the entry to a block that is not bypassed. -/
theorem dominates {x : BlockId} (hx : ¬ R x) : f.entryGraph.Dominates branch x := by
  intro r hroot hr hpath
  refine hx ?_
  have hapart : r ≠ branch → R r := fun _ ↦ h.entry_mem r hroot
  induction hpath with
  | refl => exact hapart hr
  | @tail y z hpath hstep ih =>
      by_contra hz
      have hy : R y := by
        by_contra hy
        exact hy (ih hy)
      obtain ⟨b, hb, rfl, hz'⟩ := mem_flowPredecessors.mp hstep.1.1
      obtain ⟨edge, hedge, rfl⟩ := List.mem_map.mp hz'
      have hid := (h.next b hb hy edge hedge hz).1
      exact FlowGraph.Avoids.ne hpath hr hid

/-- A run leaves the bypassed blocks along the taken edge only. -/
theorem taken {env : Env} (hb : b ∈ f.blocks) (hin : R b.id)
    (htaken : b.terminator.taken env = some edge) (hout : ¬ R edge.target) :
    b.id = branch ∧ ∃ condition thenEdge elseEdge,
      b.terminator = .branch condition thenEdge elseEdge ∧
        boolOperand env condition = some true := by
  obtain ⟨hid, condition, elseEdge, hterminator, helse⟩ :=
    h.next b hb hin edge (KirTerminator.taken_mem_edges htaken) hout
  refine ⟨hid, condition, edge, elseEdge, hterminator, ?_⟩
  rw [hterminator] at htaken
  obtain ⟨c, hc, hedge⟩ := Option.map_eq_some_iff.mp htaken
  cases c with
  | true => exact hc
  | false => exact absurd (hedge ▸ helse) hout

end Bypass

end KirFunction

namespace Activation

variable {t : TargetModel} {f : KirFunction} {past : List Moment} {frame : Frame}
variable {memory : Memory} {branch use : BlockId} {R : BlockId → Prop}

/-- Where only the taken edge leads the condition is still true: its block was bypassed. -/
theorem condition_true (hf : f.Strict) (hR : f.Bypass branch use R) {b : KirBlock}
    (hb : b ∈ f.blocks) (hid : b.id = branch) {condition : ValueId} {thenEdge elseEdge : KirEdge}
    (hterminator : b.terminator = .branch condition thenEdge elseEdge) {j : Nat}
    {i : KirInstruction} (hi : b.instructions[j]? = some i) (hdef : condition ∈ i.defs)
    (h : Activation t f past frame memory) (hout : ¬ R frame.block.id) :
    frame.env.scalar condition = some (.bool true) := by
  have hsite := KirFunction.site?_of_result hf.values hb hi hdef
  revert hout
  refine h.site_induction
    (P := fun q env ↦ ¬ R q.1 → env.scalar condition = some (.bool true)) ?_ ?_ ?_
  · intro first args hfirst hout
    refine absurd (hR.entry_mem first.id ?_) hout
    simp [KirFunction.entryGraph, KirFunction.entryId?, hfirst]
  · intro past frame memory i' rest env' h hrest hran ih hout
    rw [hran.keeps condition ?_]
    · exact ih hout
    · -- the condition is computed in a bypassed block
      intro hdef'
      have hsite' := KirFunction.site?_of_result hf.values h.block_mem (h.site_head hrest).1 hdef'
      have hsame := congrArg Prod.fst (Option.some.inj (hsite.symm.trans hsite'))
      have hblock : frame.block.id = branch := hsame.symm.trans hid
      exact hout (show R frame.block.id from hblock ▸ hR.branch_mem)
  · intro past frame memory edge c xs h hrest htaken hc hxs hlen ih hout
    have hkeep : (frame.env.setAll ((c.params.map (·.value)).zip xs)).scalar condition =
        frame.env.scalar condition := by
      refine Env.scalar_of_eq (Env.setAll_of_notMem (fun hzip ↦ ?_) _)
      have hsite' := KirFunction.site?_of_blockParam hf.values (h.follow_edge htaken hc).1
        (mem_of_mem_map_fst_zip hzip)
      exact absurd (congrArg Prod.snd (Option.some.inj (hsite.symm.trans hsite'))) (by simp)
    rw [hkeep]
    by_cases hin : R frame.block.id
    · have htarget := (KirFunction.mem_blocks_of_block? hc).2
      obtain ⟨hblock, c', e₁, e₂, hterminator', htrue⟩ :=
        hR.taken h.block_mem hin htaken (htarget ▸ hout)
      obtain rfl := KirFunction.block_ext hf.blocks hb h.block_mem (hid.trans hblock.symm)
      rw [hterminator] at hterminator'
      cases hterminator'
      exact Env.scalar_of_boolOperand htrue
    · exact ih (by rwa [site_end hrest])

/-- A value that the rule takes for the length of a slice is its length. -/
theorem sliceLen_scalar (h : Activation t f past frame memory) (hf : f.Strict)
    (hentry : f.PlainEntry) {v slice : ValueId} (hlen : f.valueIsSliceLenOf v slice = true)
    (hv : f.Available v frame.site) (hslice : f.Available slice frame.site) {data len : Int}
    (henv : frame.env.scalar slice = some (.slice data len)) :
    frame.env.scalar v = some (.int .u32 len) := by
  unfold KirFunction.valueIsSliceLenOf at hlen
  split at hlen
  case h_1 => cases hlen
  rename_i i hfind
  have hi := List.mem_of_find?_eq_some hfind
  have hany := List.find?_some hfind
  obtain ⟨r, hr, heq⟩ := List.any_eq_true.mp hany
  obtain rfl : r.value = v := of_decide_eq_true heq
  split at hlen
  case h_2 => cases hlen
  rename_i measured hkind
  obtain ⟨⟨before, memory', values, heval, hcount, huses, hresults⟩, havail⟩ :=
    h.evaluated_of_result hf hi (by simp [KirInstruction.isComputed, hkind])
      (List.mem_map_of_mem hr) hv
  have huse : measured ∈ i.uses := by simp [KirInstruction.uses, hkind]
  -- the measured slice is the slice, whichever of the two is followed to the other
  have hsame : frame.env.scalar measured = frame.env.scalar slice := by
    rw [Bool.or_eq_true, Bool.or_eq_true] at hlen
    rcases hlen with (hforward | hforward) | hboth
    · exact h.forwarded hf hentry (of_decide_eq_true hforward) (havail measured huse)
    · exact (h.forwarded hf hentry (of_decide_eq_true hforward) hslice).symm
    · obtain ⟨hsome, heq⟩ := Bool.and_eq_true_iff.mp hboth
      obtain ⟨o, ho⟩ := Option.isSome_iff_exists.mp hsome
      have hleft := h.origin hf hentry (havail measured huse)
      have hright := h.origin hf hentry hslice
      rw [ho] at hleft
      rw [of_decide_eq_true heq, ho] at hright
      exact hleft.1.trans hright.1.symm
  have hbefore : sliceOperand before measured = some (data, len) := by
    have hscalar := (huses measured huse).symm.trans (hsame.trans henv)
    rw [sliceOperand, (Env.scalar_eq_some.mp hscalar).1]
  simp only [evalInstruction, hkind, hbefore, Option.map_some, Option.some.injEq] at heval
  subst heval
  obtain ⟨k, hk⟩ := List.mem_iff_getElem?.mp hr
  have hlt : k < 1 := lt_of_lt_of_le (List.getElem?_eq_some_iff.mp hk).1 hcount
  obtain rfl : k = 0 := by omega
  exact hresults 0 r _ hk rfl

/-- Where the rule finds a bound of a value, the bound is an integer strictly above it. -/
theorem below_branchBound (h : Activation t f past frame memory) (hf : f.Strict)
    (hentry : f.PlainEntry) {b : KirBlock} (hb : b ∈ f.blocks) {v bound : ValueId}
    (hbound : f.branchBound? frame.block.id v b = some bound) (hv : f.Available v frame.site)
    {type : IntegerType} {x : Int} (henv : frame.env.scalar v = some (.int type x)) :
    f.Available bound frame.site ∧
      ∃ y, frame.env.scalar bound = some (.int type y) ∧ x < y := by
  unfold KirFunction.branchBound? at hbound
  split at hbound
  case h_2 => cases hbound
  rename_i condition thenEdge elseEdge hterminator
  obtain ⟨comparison, hfind, hbound⟩ := Option.bind_eq_some_iff.mp hbound
  obtain ⟨⟨tested, y⟩, hpair, hbound⟩ := Option.bind_eq_some_iff.mp hbound
  dsimp only at hbound
  split at hbound
  case isFalse => cases hbound
  rename_i haccept
  obtain ⟨-, -, -, hforward, hdominates⟩ := haccept
  cases hbound
  have hresult := List.find?_some hfind
  obtain ⟨r, hr, rfl⟩ := Option.map_eq_some_iff.mp (of_decide_eq_true hresult)
  have hdef : r.value ∈ comparison.defs := List.mem_map_of_mem (List.mem_of_head? hr)
  have hmem : comparison ∈ b.instructions := List.mem_of_find?_eq_some hfind
  obtain ⟨j, hj⟩ := List.mem_iff_getElem?.mp hmem
  -- the comparison came before, with the outcome true
  obtain ⟨R, hR⟩ := KirFunction.bypass_of_takenEdgeDominates hf.blocks hdominates
  have htrue := condition_true hf hR hb rfl hterminator hj hdef h hR.use_notMem
  have hcondition : f.Available r.value frame.site := by
    intro p hp
    rw [KirFunction.site?_of_result hf.values hb hj hdef] at hp
    cases hp
    rw [KirFunction.Precedes, if_neg]
    · exact hR.dominates hR.use_notMem
    · exact fun heq : b.id = frame.block.id ↦ hR.use_notMem (heq ▸ hR.branch_mem)
  have hcompare : ∃ op left right, comparison.kind = .compare op left right ∧
      ((op = .lt ∧ tested = left ∧ bound = right) ∨ (op = .gt ∧ tested = right ∧ bound = left)) := by
    split at hpair
    · rename_i left right hkind
      cases hpair
      exact ⟨_, _, _, hkind, Or.inl ⟨rfl, rfl, rfl⟩⟩
    · rename_i left right hkind
      cases hpair
      exact ⟨_, _, _, hkind, Or.inr ⟨rfl, rfl, rfl⟩⟩
    · cases hpair
  obtain ⟨op, left, right, hkind, hsides⟩ := hcompare
  obtain ⟨⟨before, memory', values, heval, -, huses, hresults⟩, havail⟩ :=
    h.evaluated_of_result hf (KirFunction.mem_instructions.mpr ⟨b, hb, hmem⟩)
      (by simp [KirInstruction.isComputed, hkind]) hdef hcondition
  have hleft : left ∈ comparison.uses := by simp [KirInstruction.uses, hkind]
  have hright : right ∈ comparison.uses := by simp [KirInstruction.uses, hkind]
  simp only [evalInstruction, hkind, Option.bind_eq_some_iff, Option.map_eq_some_iff] at heval
  obtain ⟨l, hl, k, hk, c, hc, rfl⟩ := heval
  obtain rfl : c = true := by
    have hresult := hresults 0 r _ (by rwa [← List.head?_eq_getElem?]) rfl
    rw [htrue] at hresult
    simpa [KirValue.isRecord] using hresult.symm
  have htested : frame.env.scalar tested = some (.int type x) :=
    (h.forwarded hf hentry (of_decide_eq_true hforward) hv).symm.trans henv
  rcases hsides with ⟨rfl, rfl, rfl⟩ | ⟨rfl, rfl, rfl⟩
  · refine ⟨havail _ hright, ?_⟩
    have hbefore := (Env.scalar_eq_some.mp ((huses _ hleft).symm.trans htested)).1
    obtain rfl := Option.some.inj (hl.symm.trans hbefore)
    obtain ⟨y, rfl, hlt⟩ := evalCompare_int_left hc
    refine ⟨y, ?_, by simpa [compareInt] using hlt⟩
    rw [huses _ hright]
    exact Env.scalar_eq_some.mpr ⟨hk, rfl⟩
  · refine ⟨havail _ hleft, ?_⟩
    have hbefore := (Env.scalar_eq_some.mp ((huses _ hright).symm.trans htested)).1
    obtain rfl := Option.some.inj (hk.symm.trans hbefore)
    obtain ⟨y, rfl, hlt⟩ := evalCompare_int_right hc
    refine ⟨y, ?_, by simpa [compareInt] using hlt⟩
    rw [huses _ hleft]
    exact Env.scalar_eq_some.mpr ⟨hl, rfl⟩

end Activation

/-! ## The guard -/

theorem isSingleTerm_eval {e : ContractFactAffineExpression} {term : ContractFactAffineTerm}
    (h : e.isSingleTerm term = true) (env : Env) : e.eval env = term.eval env := by
  rw [ContractFactAffineExpression.isSingleTerm, Bool.and_eq_true, decide_eq_true_eq,
    decide_eq_true_eq] at h
  obtain ⟨hconstant, hterms⟩ := h
  rw [ContractFactAffineExpression.eval, hterms, hconstant]
  cases hterm : term.eval env <;> simp [hterm]

/-- A premise that puts a value at most at a slice length holds of the values of a run. -/
theorem le_of_premise {env : Env} {premises : List CheckedStep} {premise : CheckedStep}
    {v slice : ValueId} (hfacts : FactsHoldIn env premises) (hmem : premise ∈ premises)
    (hproves : premise.provesValueAtMostSliceLen v slice = true) {y data len : Int}
    (hv : intOperand env v = some y) (hslice : sliceOperand env slice = some (data, len)) :
    y ≤ len := by
  cases premise with
  | fact predicate scope =>
      cases predicate with
      | contract predicate =>
          have hholds := hfacts predicate scope hmem
          cases predicate with
          | comparison operator left right =>
              have hvalue : (ContractFactAffineTerm.value v).eval env = some y := hv
              have hlength : (ContractFactAffineTerm.sliceLength slice).eval env = some len := by
                simp [ContractFactAffineTerm.eval, hslice]
              simp only [CheckedStep.provesValueAtMostSliceLen,
                ContractFactPredicate.provesValueAtMostSliceLen, Bool.or_eq_true,
                Bool.and_eq_true, decide_eq_true_eq] at hproves
              rcases hproves with ⟨⟨rfl, hleft⟩, hright⟩ | ⟨⟨rfl, hleft⟩, hright⟩
              · have hle := hholds y len ((isSingleTerm_eval hleft env).trans hvalue)
                  ((isSingleTerm_eval hright env).trans hlength)
                exact hle.2.1 rfl
              · have hge := hholds len y ((isSingleTerm_eval hleft env).trans hlength)
                  ((isSingleTerm_eval hright env).trans hvalue)
                exact hge.2.2.2.1 rfl
          | _ => cases hproves
      | _ => cases hproves
  | _ => cases hproves

namespace KirFunction

variable {f : KirFunction} {b c : KirBlock} {i k : KirInstruction}

/-- An instruction identity belongs to one block. -/
theorem block_of_instruction (hnodup : (f.instructions.map (·.id)).Nodup) (hb : b ∈ f.blocks)
    (hc : c ∈ f.blocks) (hi : i ∈ b.instructions) (hk : k ∈ c.instructions) (hid : i.id = k.id) :
    b = c := by
  by_contra hne
  rw [instructions, List.map_flatMap] at hnodup
  have : Std.Symm (Function.onFun List.Disjoint
      fun b : KirBlock ↦ b.instructions.map (·.id)) := ⟨fun _ _ h ↦ h.symm⟩
  have hdisjoint := (List.nodup_flatMap.mp hnodup).2.forall hb hc hne
  exact hdisjoint (List.mem_map_of_mem hi) (hid ▸ List.mem_map_of_mem hk)

/-- The bounds of a use are those that the branches put on the value there. -/
theorem mem_strictUpperBounds (hnodup : (f.instructions.map (·.id)).Nodup) (hb : b ∈ f.blocks)
    (hi : i ∈ b.instructions) {v bound : ValueId} (h : bound ∈ f.strictUpperBounds i.id v) :
    ∃ c ∈ f.blocks, f.branchBound? b.id v c = some bound := by
  unfold strictUpperBounds at h
  split at h
  case h_1 => cases h
  rename_i useBlock hfind
  have hany := List.find?_some hfind
  obtain ⟨k, hk, hid⟩ := List.any_eq_true.mp hany
  obtain rfl := block_of_instruction hnodup hb (List.mem_of_find?_eq_some hfind) hi hk
    (of_decide_eq_true hid).symm
  obtain ⟨c, hc, hbound⟩ := List.mem_filterMap.mp h
  exact ⟨c, hc, hbound⟩

end KirFunction

def checkedConfig : KirBuildConfig := ⟨.c, .checked, .checked, .disabled⟩

/-- `fn walk(s: slice<i32>) { let i = 0; while (i < s.len) { s[i]; i = i + 1; } }`, as KIR. -/
def walkModule : KirModule :=
  ⟨checkedConfig, none, [],
    [⟨0, "walk", true, [⟨0, "s", .slice .i32⟩], .void,
      [⟨0, .conservative, none, 0, none⟩], [⟨0, 0⟩], [],
      [⟨0, "bb0", [], [], [⟨0, [⟨1, .scalar .u32⟩], .constInt "0", none, none⟩], .jump ⟨1, [1], []⟩⟩,
        ⟨1, "bb1", [⟨2, "i", .scalar .u32⟩], [],
          [⟨1, [⟨3, .scalar .u32⟩], .sliceLen 0, none, none⟩,
            ⟨2, [⟨4, .scalar .bool⟩], .compare .lt 2 3, none, none⟩],
          .branch 4 ⟨2, [], []⟩ ⟨3, [], []⟩⟩,
        ⟨2, "bb2", [], [],
          [⟨3, [⟨5, .scalar .bool⟩], .checkCondition .sliceOutOfBounds [0, 2], none, none⟩,
            ⟨4, [], .guard 5 .outOfBounds, none, some ⟨0, .mayFail⟩⟩,
            ⟨5, [⟨6, .scalar .u32⟩], .constInt "1", none, none⟩,
            ⟨6, [⟨7, .scalar .u32⟩], .binary .add 2 6 .modular, none, none⟩],
          .jump ⟨1, [7], []⟩⟩,
        ⟨3, "bb3", [], [], [], .return none [(0, 0)] 1⟩]⟩]⟩

/-- The entry block takes the index `i`, which holds what `p` held when the block was entered
before. -/
def staleModule : KirModule :=
  ⟨checkedConfig, none, [],
    [⟨0, "stale", true, [⟨0, "p", .pointer .u32⟩, ⟨1, "s", .slice .i32⟩], .void,
      [⟨0, .conservative, none, 0, none⟩], [⟨0, 0⟩], [],
      [⟨0, "bb0", [⟨2, "i", .scalar .u32⟩], [⟨1, 0⟩],
          [⟨0, [⟨3, .scalar .u32⟩], .load (.deref 0 .u32 0), some ⟨0, 1, none⟩,
              some ⟨0, .readMemory⟩⟩,
            ⟨1, [⟨4, .scalar .u32⟩], .sliceLen 1, none, none⟩,
            ⟨2, [⟨5, .scalar .bool⟩], .compare .lt 3 4, none, none⟩],
          .branch 5 ⟨1, [], []⟩ ⟨2, [], []⟩⟩,
        ⟨1, "bb1", [], [],
          [⟨3, [⟨6, .scalar .bool⟩], .checkCondition .sliceOutOfBounds [1, 2], none, none⟩,
            ⟨4, [], .guard 6 .outOfBounds, none, some ⟨1, .mayFail⟩⟩],
          .return none [(0, 1)] 2⟩,
        ⟨2, "bb2", [], [],
          [⟨5, [⟨7, .scalar .u32⟩], .constInt "0", none, none⟩,
            ⟨6, [], .store (.deref 0 .u32 0) 7, some ⟨0, 1, some 2⟩, some ⟨3, .writeMemory⟩⟩],
          .jump ⟨0, [3], [2]⟩⟩]⟩]⟩

/-- A call of `walk` up to the check of its second turn. -/
def walkRun : Option ActivationState :=
  ActivationState.after (lp64 zeroFloats) walkModule.first [.slice 8 2] (fun _ ↦ none) 13

theorem walkRun_isSome : walkRun.isSome := by decide +kernel

def walkState : ActivationState := walkRun.get walkRun_isSome

theorem walkState_activation : Activation (lp64 zeroFloats) walkModule.first walkState.past
    walkState.frame walkState.memory :=
  ActivationState.after_activation (Option.some_get walkRun_isSome).symm

/-- The `u32` 5 at the address 0. -/
def fiveMemory : Memory := fun a ↦ if a = 0 then some 5 else if a < 4 then some 0 else none

def staleRun : Option ActivationState :=
  ActivationState.after (lp64 zeroFloats) staleModule.first [.pointer 0, .slice 8 3] fiveMemory 11

theorem staleRun_isSome : staleRun.isSome := by decide +kernel

def staleState : ActivationState := staleRun.get staleRun_isSome

theorem staleState_activation : Activation (lp64 zeroFloats) staleModule.first staleState.past
    staleState.frame staleState.memory :=
  ActivationState.after_activation (Option.some_get staleRun_isSome).symm

end CalcKernel
