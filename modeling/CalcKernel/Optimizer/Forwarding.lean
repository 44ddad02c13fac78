import CalcKernel.Kir.Evaluation
import CalcKernel.Lib.Search

/-!
# Forwarded values

The certificate checker follows a value back through the arguments of edges and through
copies to the leaves it comes from, never trusting a loop analysis.
-/

namespace CalcKernel

open Lib

/-! ## Reading a function -/

namespace KirFunction

variable (f : KirFunction)

/-- The edges to a block with the blocks they leave. -/
def predecessorEdges (target : BlockId) : List (BlockId × KirEdge) :=
  f.blocks.flatMap fun b ↦
    (b.terminator.edges.filter (·.target = target)).map fun edge ↦ (b.id, edge)

/-- The block and the place of a block parameter. -/
def paramPosition? (v : ValueId) : Option (BlockId × Nat) :=
  f.blocks.findSome? fun b ↦
    ((b.params.map (·.value)).findIdx? (· = v)).map fun index ↦ (b.id, index)

/-- The operand of the copy that makes a value. -/
def copyOperand? (v : ValueId) : Option ValueId :=
  f.instructions.findSome? fun i ↦
    if (i.results.head?).map (·.value) = some v then
      match i.kind with
      | .copy w => some w
      | _ => none
    else none

/-- `resolve_constant`. -/
def resolveConstant (v : ValueId) : Option Int :=
  (f.instructions.find? fun i ↦ (i.results.head?).map (·.value) = some v).bind fun i ↦
    match i.kind with
    | .constInt text => parseInteger text
    | _ => none

/-- `value_integer_type`. -/
def valueIntegerType (v : ValueId) : Option IntegerType :=
  match (f.params.find? (·.value = v)).bind fun p ↦ IntegerType.fromMir p.typeNode with
  | some type => some type
  | none => (f.blocks.flatMap (·.valueTypes)).findSome? fun p ↦
      if p.1 = v then IntegerType.fromKir p.2 else none

/-! ## The search for leaves -/

/-- The values a value is taken over from; the search gives up on an edge without an argument. -/
def followed (stopAt : Option ValueId) (v : ValueId) : Option (List ValueId) :=
  if stopAt = some v then some []
  else match f.paramPosition? v with
    | some (block, index) =>
        match (f.predecessorEdges block).mapM fun p ↦ p.2.args[index]? with
        | some (first :: others) => some (first :: others).reverse
        | _ => none
    | none => some (f.copyOperand? v).toList

def isLeaf (stopAt : Option ValueId) (v : ValueId) : Bool :=
  stopAt = some v || (f.paramPosition? v = none && f.copyOperand? v = none)

/-- The values that following a value adds at most. -/
def fanOut (v : ValueId) : Nat :=
  match f.paramPosition? v with
  | some (block, _) => (f.predecessorEdges block).length
  | none => if (f.copyOperand? v).isSome then 1 else 0

/-- `forwarding_leaves`. -/
def forwardingLeaves (v : ValueId) (stopAt : Option ValueId) : Option (List ValueId) :=
  (search (f.followed stopAt) (1 + (f.valueIds.map f.fanOut).sum) [v]).map fun visited ↦
    (visited.filter (f.isLeaf stopAt)).insertionSort (· ≤ ·)

/-- `forwarded_from`. -/
def forwardedFrom (v origin : ValueId) : Bool :=
  f.forwardingLeaves v (some origin) = some [origin]

/-- `forwarding_origin`. -/
def forwardingOrigin (v : ValueId) : Option ValueId :=
  match f.forwardingLeaves v none with
  | some [origin] => some origin
  | _ => none

variable {f} {v w : ValueId}

/-! ## Reading back positions -/

theorem mem_predecessorEdges {target : BlockId} {source : BlockId} {edge : KirEdge} :
    (source, edge) ∈ f.predecessorEdges target ↔
      ∃ b ∈ f.blocks, b.id = source ∧ edge ∈ b.terminator.edges ∧ edge.target = target := by
  simp only [predecessorEdges, List.mem_flatMap, List.mem_map, List.mem_filter, decide_eq_true_eq,
    Prod.mk.injEq]
  constructor
  · rintro ⟨b, hb, _, ⟨hedge, htarget⟩, rfl, rfl⟩
    exact ⟨b, hb, rfl, hedge, htarget⟩
  · rintro ⟨b, hb, rfl, hedge, htarget⟩
    exact ⟨b, hb, edge, ⟨hedge, htarget⟩, rfl, rfl⟩

theorem paramPosition?_eq_some {block : BlockId} {index : Nat}
    (h : f.paramPosition? v = some (block, index)) :
    ∃ b ∈ f.blocks, b.id = block ∧ (b.params.map (·.value))[index]? = some v := by
  obtain ⟨b, hb, h⟩ := List.exists_of_findSome?_eq_some h
  obtain ⟨k, hk, heq⟩ := Option.map_eq_some_iff.mp h
  cases heq
  obtain ⟨hlt, hval, _⟩ := List.findIdx?_eq_some_iff_getElem.mp hk
  exact ⟨b, hb, rfl, List.getElem?_eq_some_iff.mpr ⟨hlt, of_decide_eq_true hval⟩⟩

theorem copyOperand?_eq_some (h : f.copyOperand? v = some w) :
    ∃ i ∈ f.instructions, i.kind = .copy w ∧ (i.results.head?).map (·.value) = some v := by
  obtain ⟨i, hi, h⟩ := List.exists_of_findSome?_eq_some h
  split at h
  case isFalse => cases h
  rename_i hresult
  split at h
  · rename_i w hkind
    cases h
    exact ⟨i, hi, hkind, hresult⟩
  · cases h

/-! ## What the search finds -/

variable (f) in
/-- The value is a leaf, or those it is taken over from are known. -/
inductive Follows (stopAt : Option ValueId) (leaf known : ValueId → Prop) (v : ValueId) : Prop
  | leaf (hleaf : leaf v)
  | param {block : BlockId} {index : Nat} (hstop : stopAt ≠ some v)
      (h : f.paramPosition? v = some (block, index)) (hedges : f.predecessorEdges block ≠ [])
      (hargs : ∀ p ∈ f.predecessorEdges block, ∃ a, p.2.args[index]? = some a ∧ known a)
  | copy {w : ValueId} (hstop : stopAt ≠ some v) (hparam : f.paramPosition? v = none)
      (h : f.copyOperand? v = some w) (hknown : known w)

variable {stopAt : Option ValueId}

/-- The values visited are followed down to the leaves. -/
theorem forwardingLeaves_eq_some {leaves : List ValueId}
    (h : f.forwardingLeaves v stopAt = some leaves) :
    ∃ S : ValueId → Prop, S v ∧ ∀ w, S w → f.Follows stopAt (· ∈ leaves) S w := by
  obtain ⟨visited, hsearch, rfl⟩ := Option.map_eq_some_iff.mp h
  obtain ⟨hstart, hclosed⟩ := search_closed hsearch
  refine ⟨(· ∈ visited), hstart v (List.mem_singleton_self v), fun w hw ↦ ?_⟩
  have hleaf : f.isLeaf stopAt w = true →
      w ∈ (visited.filter (f.isLeaf stopAt)).insertionSort (· ≤ ·) := fun h ↦
    (List.mem_insertionSort _).mpr (List.mem_filter.mpr ⟨hw, h⟩)
  obtain ⟨new, hnew, hknown⟩ := hclosed w hw
  unfold followed at hnew
  split at hnew
  · rename_i hstop
    exact .leaf (hleaf (by simp [isLeaf, hstop]))
  · rename_i hstop
    split at hnew
    · rename_i block index hposition
      split at hnew
      · rename_i first others hargs
        cases hnew
        have hforall := mapM_option_eq_some hargs
        refine .param hstop hposition ?_ fun p hp ↦ ?_
        · rintro hnil
          rw [hnil] at hargs
          cases hargs
        · obtain ⟨a, ha, harg⟩ := forall₂_mem_left hforall hp
          exact ⟨a, harg, hknown a (List.mem_reverse.mpr ha)⟩
      · cases hnew
    · rename_i hposition
      cases hnew
      cases hcopy : f.copyOperand? w with
      | none => exact .leaf (hleaf (by simp [isLeaf, hposition, hcopy]))
      | some u =>
          refine .copy hstop hposition hcopy (hknown u ?_)
          rw [hcopy]
          exact List.mem_singleton_self u

theorem fanOut_of_notMem (h : v ∉ f.valueIds) : f.fanOut v = 0 := by
  have hparam : f.paramPosition? v = none := by
    refine List.findSome?_eq_none_iff.mpr fun b hb ↦ ?_
    rw [Option.map_eq_none_iff, List.findIdx?_eq_none_iff]
    intro w hw
    refine decide_eq_false fun heq ↦ h ?_
    refine List.mem_append_right _ (List.mem_flatMap.mpr ⟨b, hb, List.mem_append_left _ ?_⟩)
    exact heq ▸ hw
  have hcopy : f.copyOperand? v = none := by
    refine List.findSome?_eq_none_iff.mpr fun i hi ↦ if_neg fun heq ↦ h ?_
    obtain ⟨b, hb, hib⟩ := List.mem_flatMap.mp hi
    obtain ⟨r, hr, rfl⟩ := Option.map_eq_some_iff.mp heq
    refine List.mem_append_right _ (List.mem_flatMap.mpr ⟨b, hb, List.mem_append_right _ ?_⟩)
    exact List.mem_flatMap.mpr ⟨i, hib, List.mem_map_of_mem (List.mem_of_head? hr)⟩
  simp [fanOut, hparam, hcopy]

theorem length_followed {new : List ValueId} (h : f.followed stopAt v = some new) :
    new.length ≤ f.fanOut v := by
  unfold followed at h
  split at h
  · cases h
    exact Nat.zero_le _
  · cases hposition : f.paramPosition? v with
    | some position =>
        obtain ⟨block, index⟩ := position
        rw [hposition] at h
        dsimp only at h
        split at h
        · rename_i first others hargs
          cases h
          rw [fanOut, hposition, List.length_reverse]
          exact (mapM_option_eq_some hargs).length_eq.ge
        · cases h
    | none =>
        rw [hposition] at h
        cases h
        rw [fanOut, hposition]
        cases f.copyOperand? v <;> simp

/-- The rounds of the search are enough to run it to its end. -/
theorem forwardingSearch_returns (f : KirFunction) (v : ValueId) (stopAt : Option ValueId) :
    ∃ s, searchLoop (f.followed stopAt) (1 + (f.valueIds.map f.fanOut).sum) [v] = some s ∧
      (s.stuck = true ∨ s.pending = []) :=
  searchLoop_returns f.fanOut f.valueIds (fun _ _ h ↦ length_followed h)
    (fun _ h ↦ fanOut_of_notMem h) (le_refl _)

end KirFunction

end CalcKernel
