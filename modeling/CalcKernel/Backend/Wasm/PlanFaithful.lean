import CalcKernel.Backend.Wasm.Completeness

/-!
# Structured control is faithful

A plan lays every reachable block out once, gives every edge a label in scope, and its
nest visits the blocks the flow graph visits.  There is a plan for every function within
the limits whose flow graph is reducible.
-/

namespace CalcKernel

open Relation

namespace KirFunction

variable {f : KirFunction} {plan : StructurePlan} {entry x y : BlockId}

/-- What a plan lays out. -/
structure Planned (f : KirFunction) (plan : StructurePlan) (entry : BlockId) : Prop where
  starts : f.entryId? = some entry
  valid : plan.Valid f
  nodup : plan.root.blocks.Nodup
  mem : ∀ x, x ∈ plan.root.blocks ↔ f.Reached x
  first : plan.root.heads.head? = some entry

theorem planStructure_eq_some (h : f.planStructure = some plan) :
    ∃ entry, f.Planned plan entry := by
  obtain ⟨reachable, hreachable, h⟩ := Option.bind_eq_some_iff.mp h
  have hR := reachableBlocks_eq_some hreachable
  split at h
  · cases h
  · obtain ⟨loops, hloops, h⟩ := Option.bind_eq_some_iff.mp h
    obtain ⟨loops', hloops', hL⟩ := discoverLoops_returns hR
    cases hloops.symm.trans hloops'
    obtain ⟨entry, hentry, h⟩ := Option.bind_eq_some_iff.mp h
    obtain ⟨root, hroot, h⟩ := Option.bind_eq_some_iff.mp h
    obtain ⟨targets, htargets, h⟩ := Option.bind_eq_some_iff.mp h
    split at h
    · cases h
      obtain ⟨hregion, hlaid⟩ := buildRegion_eq_some hR (attachLoopParents_forest hL)
        (fun _ hnone ↦ by cases hnone) (Or.inr ⟨Eq.refl _, hentry⟩) hroot
      obtain ⟨hrecorded, hscoped⟩ := validateScopes_eq_some htargets
      refine ⟨entry, hentry, ⟨root.collectLabels_complete, hrecorded.2 (by simp), hscoped,
        hlaid.headersFirst⟩, hlaid.nodup_blocks hregion.nodup fun r hr ↦ (hregion.mem r).mp hr,
        fun x ↦ hregion.mem_blocks hlaid, hregion.first⟩
    · cases h

theorem planStructure_returns (hwf : f.WellFormedFlow)
    (hsize : f.ReachedWithin maxReachableBlocks)
    (hdepth : f.LoopsWithin f.flowGraph maxLoopDepth) (hred : f.ReducibleFlow) :
    ∃ plan, f.planStructure = some plan := by
  obtain ⟨reachable, hreachable⟩ := reachableBlocks_returns hwf hsize
  have hR := reachableBlocks_eq_some hreachable
  obtain ⟨loops, hloops, hL⟩ := discoverLoops_returns hR
  have hF := attachLoopParents_forest hL
  obtain ⟨entry, hentry⟩ : ∃ entry, f.entryId? = some entry := by
    cases hblocks : f.blocks with
    | nil => exact absurd hblocks hwf.nonempty
    | cons b blocks => exact ⟨b.id, by simp [entryId?, hblocks]⟩
  have hmem : entry ∈ reachable := (hR.mem entry).mpr (reached_entry hentry)
  have howner : f.IsOwner none := fun _ hnone ↦ by cases hnone
  have hstarts : f.StartsAt none entry := Or.inr ⟨Eq.refl _, hentry⟩
  obtain ⟨root, hroot⟩ : ∃ root,
      f.buildRegion reachable (f.attachLoopParents loops) (maxLoopDepth + 1) none 0 entry =
        some root :=
    buildRegion_returns hR hF hred hdepth (Eq.refl _) ⟨List.nodup_nil, by simp, by simp⟩
      List.length_nil howner hstarts
  obtain ⟨hregion, hlaid⟩ := buildRegion_eq_some hR hF howner hstarts hroot
  have hblocks : ∀ x, x ∈ root.blocks ↔ x ∈ reachable := fun x ↦
    (hregion.mem_blocks hlaid).trans (hR.mem x).symm
  have hnodup := hlaid.nodup_blocks hregion.nodup fun r hr ↦ (hregion.mem r).mp hr
  have hscope : f.InScope root none [] [] :=
    ⟨fun x hx y hedge hy ↦ absurd (Reached.tail hx hedge) hy, by simp, by simp, by simp⟩
  have hfresh : ∀ key ∈ ([] : List ((BlockId × Nat) × BranchTarget)).map (·.1),
      key.1 ∉ root.blocks := by simp
  obtain ⟨targets, htargets, hlength, _⟩ := validateScopes_returns hR hF root.collectLabels_complete
    howner (List.Subset.refl _) (List.Subset.refl _) hlaid (fun r hr ↦ (hregion.mem r).mp hr)
    hregion.ordered
    (fun r _ t hedge ↦ by
      obtain ⟨_, _, _, _, _, ht, _⟩ := hedge
      exact (hregion.mem t).mpr ht.self)
    hscope hnodup hfresh
  have hcount : targets.length = f.expectedEdges reachable := by
    have hperm := (List.perm_ext_iff_of_nodup hnodup hR.nodup).mpr hblocks
    rw [hlength, List.length_nil, Nat.zero_add, expectedEdges_eq]
    exact (hperm.map f.armCount).sum_eq
  refine ⟨⟨root, reachable, root.collectLabels none ⟨[], []⟩, targets⟩, ?_⟩
  have hlimit : ¬ (reachable = [] ∨ maxReachableBlocks < reachable.length) := by
    rintro (hnil | hlarge)
    · rw [hnil] at hmem
      cases hmem
    · exact absurd (hsize reachable hR.nodup fun x ↦ (hR.mem x).mp) (Nat.not_le.mpr hlarge)
  rw [planStructure, hreachable, Option.bind_eq_bind, Option.bind_some, if_neg hlimit]
  simp only [hloops, hentry, hroot, htargets, Option.bind_eq_bind, Option.bind_some, if_pos hcount]

/-- The label of the block around the root region. -/
def exitLabel : String := "ik_exit"

theorem freshExit : FreshExit exitLabel := by
  intro x
  constructor
  · intro h
    have hlist := congrArg String.toList h
    simp [exitLabel, forwardLabel, String.toList_append] at hlist
  · intro h
    have hlist := congrArg String.toList h
    simp [exitLabel, loopLabel, String.toList_append] at hlist

/-- No step through the function falls through or branches to an unknown label. -/
theorem flowMachine_no_fallThrough (f : KirFunction) (decisions : Nat → Bool) (s : FlowState) :
    ControlEvent.fallThrough ∉ ((f.flowMachine decisions).step s).1 := by
  unfold flowMachine
  dsimp only
  split
  · simp
  · split <;> simp

/-- A weight that grows along the forward edges. -/
theorem reducible_of_weight {G : Lib.FlowGraph BlockId} {entry : BlockId} (w : BlockId → Nat)
    (h : ∀ x y, G.Forward x y → w x < w y) : G.Reducible entry := by
  intro x _ hcycle
  have hlt : ∀ {y}, TransGen G.Forward x y → w x < w y := by
    intro y hy
    induction hy with
    | single hedge => exact h _ _ hedge
    | tail _ hedge ih => exact ih.trans (h _ _ hedge)
  exact absurd (hlt hcycle) (lt_irrefl _)

theorem reachedWithin_length (f : KirFunction) : f.ReachedWithin f.blocks.length := by
  intro l hl hreached
  rw [← List.length_map KirBlock.id]
  exact (List.subperm_of_subset hl fun x hx ↦ (hreached x hx).mem_blockIds).length_le

theorem loopsWithin_length (f : KirFunction) {G : Lib.FlowGraph BlockId}
    (hedge : ∀ x y, G.edge x y → f.flowGraph.edge x y) : f.LoopsWithin G f.blocks.length := by
  intro x _ headers hnodup hheaders
  refine f.reachedWithin_length headers hnodup fun h hh ↦ ?_
  obtain ⟨⟨latch, hlatch, hback, _⟩, _⟩ := hheaders h hh
  exact hlatch.tail (hedge _ _ hback)

def flowEdge (target : BlockId) : KirEdge := ⟨target, [], []⟩

def flowBlock (id : BlockId) (terminator : KirTerminator) : KirBlock :=
  ⟨id, "", [], [], [], terminator⟩

/-- A loop of the blocks 1 and 2, and further blocks. -/
def loopFlow (others : List KirBlock) : KirFunction :=
  ⟨0, "flow", true, [], .void, [], [], [],
    [flowBlock 0 (.jump (flowEdge 1)), flowBlock 1 (.branch 0 (flowEdge 2) (flowEdge 3)),
      flowBlock 2 (.jump (flowEdge 1)), flowBlock 3 (.return none [] 0)] ++ others⟩

/-- A block without predecessors that jumps into the loop. -/
def intoLoop : KirBlock := flowBlock 4 (.jump (flowEdge 2))

theorem loopFlow_edges {others : List KirBlock} (hothers : others = [] ∨ others = [intoLoop])
    (h : (loopFlow others).flowGraph.edge x y) :
    (x = 0 ∧ y = 1) ∨ (x = 1 ∧ (y = 2 ∨ y = 3)) ∨ (x = 2 ∧ y = 1) ∨ (x = 4 ∧ y = 2) := by
  obtain ⟨b, hb, rfl, hy⟩ := mem_flowPredecessors.mp h.1
  rcases hothers with rfl | rfl <;>
    simp [loopFlow, intoLoop, flowBlock, flowEdge] at hb <;>
    rcases hb with rfl | rfl | rfl | hb <;>
    simp_all [KirTerminator.successors, KirTerminator.edges]
  rcases hb with rfl | rfl <;> simp_all

theorem loopFlow_reducible {G : Lib.FlowGraph BlockId}
    (hedge : ∀ x y, G.edge x y →
      (x = 0 ∧ y = 1) ∨ (x = 1 ∧ (y = 2 ∨ y = 3)) ∨ (x = 2 ∧ y = 1) ∨ (x = 4 ∧ y = 2))
    (hroot : ∀ r, G.root r → r = 0) : G.Reducible 0 := by
  have hdom : G.Dominates 1 2 := by
    intro r hr _ hpath
    obtain rfl := hroot r hr
    -- without block 1 the entry leads nowhere
    have hstay : ∀ y, G.Avoids 1 0 y → y = 0 := by
      intro y hy
      unfold Lib.FlowGraph.Avoids at hy
      induction hy with
      | refl => exact Eq.refl _
      | tail _ hstep ih =>
          subst ih
          rcases hedge _ _ hstep.1 with ⟨_, h⟩ | ⟨h, _⟩ | ⟨h, _⟩ | ⟨h, _⟩
          · exact absurd h hstep.2
          · cases h
          · cases h
          · cases h
    cases hstay 2 hpath
  refine reducible_of_weight (fun b ↦ if b = 4 then 0 else b) fun x y hforward ↦ ?_
  rcases hedge x y hforward.1 with ⟨rfl, rfl⟩ | ⟨rfl, rfl | rfl⟩ | ⟨rfl, rfl⟩ | ⟨rfl, rfl⟩
  · decide
  · decide
  · decide
  · exact absurd hdom hforward.2
  · decide

theorem loopFlow_wellFormed {others : List KirBlock} (hothers : others = [] ∨ others = [intoLoop]) :
    (loopFlow others).WellFormedFlow := by
  refine ⟨?_, by simp [loopFlow], fun x b _ hb t ht ↦ ?_⟩
  · rcases hothers with rfl | rfl <;> decide
  · obtain ⟨hb, _⟩ := mem_blocks_of_block? hb
    have hall : ∀ b ∈ (loopFlow others).blocks, ∀ t ∈ b.terminator.successors,
        t ∈ (loopFlow others).blockIds := by
      rcases hothers with rfl | rfl <;> decide
    exact hall b hb t ht

end KirFunction

end CalcKernel
