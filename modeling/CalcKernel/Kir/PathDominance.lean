import CalcKernel.Kir.Dominance
import CalcKernel.Kir.ValueValidation

/-!
# Dominance and paths from the entry

For a block that the entry reaches, the table of `compute_kir_dominators` is that of the
paths from the entry, unless another block without predecessors leads to such a block
around the entry: then its paths count, too, and the entry no longer dominates.
-/

namespace CalcKernel

open Lib Relation

namespace KirFunction

variable {f : KirFunction} {entry a b x y : BlockId}

theorem mem_blockIds_of_entry (hentry : f.entryId? = some entry) : entry ∈ f.blockIds := by
  obtain ⟨block, hblock, rfl⟩ := Option.map_eq_some_iff.mp hentry
  exact List.mem_map_of_mem (List.mem_of_head? hblock)

/-- The blocks of a path are blocks of the function. -/
theorem mem_blockIds_of_path (hx : x ∈ f.blockIds) (hpath : ReflTransGen f.flowGraph.edge x y) :
    y ∈ f.blockIds := by
  cases hpath with
  | refl => exact hx
  | tail _ hedge => exact hedge.2

theorem mem_blockIds_of_reachable (hb : f.entryGraph.Reachable b) : b ∈ f.blockIds := by
  obtain ⟨r, hroot, hpath⟩ := hb
  exact mem_blockIds_of_path (mem_blockIds_of_entry hroot) hpath

theorem mem_blockIds_of_computed (hentry : f.entryId? = some entry)
    (h : f.computeKirDominators a b = true) : a ∈ f.blockIds := by
  obtain ⟨rows, hrows, hinv, -⟩ := dominatorRows_returns
    (f.blocks.length * f.blocks.length + 1) (RowsInvariant.start hentry)
    (Nat.lt_succ_of_le (rowBits_startRows_le entry))
  rw [computeKirDominators, hentry] at h
  dsimp only at h
  rw [hrows] at h
  obtain ⟨-, ha⟩ := Bool.and_eq_true_iff.mp h
  obtain ⟨p, hp⟩ := hinv.row b
  rw [hp, List.contains_iff_mem, List.mem_filter] at ha
  exact mem_sortedIds.mp ha.1

/-- What is no block of the function dominates none that the entry reaches. -/
theorem not_dominates_of_notMem (ha : a ∉ f.blockIds) (hb : f.entryGraph.Reachable b) :
    ¬ f.entryGraph.Dominates a b := by
  obtain ⟨r, hroot, hpath⟩ := hb
  have hne : ∀ {z}, z ∈ f.blockIds → z ≠ a := fun hz heq ↦ ha (heq ▸ hz)
  have havoid : f.entryGraph.Avoids a r b :=
    weakenPath hpath fun _ _ hedge ↦ ⟨hedge, hne hedge.2⟩
  exact fun hdom ↦ hdom r hroot (hne (mem_blockIds_of_entry hroot)) havoid

/-- No block without predecessors, other than the entry, leads around the entry to a block that
the entry reaches. -/
def EnteredAtEntryOnly (f : KirFunction) : Prop :=
  ∀ entry, f.entryId? = some entry → ∀ r ∈ f.blockIds, r ≠ entry → f.flowPredecessors r = [] →
    ∀ b, f.entryGraph.Reachable b → ¬ f.flowGraph.Avoids entry r b

theorem EnteredAtEntryOnly.dominates_iff (h : f.EnteredAtEntryOnly)
    (hb : f.entryGraph.Reachable b) :
    f.flowGraph.Dominates a b ↔ f.entryGraph.Dominates a b := by
  constructor
  · exact fun hdom r hroot hr ↦ hdom r (Or.inl hroot) hr
  · rintro hdom r (hroot | ⟨hr, hnone⟩) hra havoid
    · exact hdom r hroot hra havoid
    · obtain ⟨entry, hentry, hpath⟩ := hb
      by_cases hre : r = entry
      · exact hdom r (hre ▸ hentry) hra havoid
      -- the path from the other block goes through the entry, from where it avoids `a`
      rcases splitPath havoid entry with ⟨htoEntry, hfromEntry⟩ | haround
      · have hea : entry ≠ a := FlowGraph.Avoids.ne htoEntry hra
        exact hdom entry hentry hea hfromEntry
      · refine h entry hentry r hr hre hnone b ⟨entry, hentry, hpath⟩ ?_
        exact weakenPath haround fun _ _ hstep ↦ ⟨hstep.1.1, hstep.2⟩

/-- The entry dominates whatever it reaches. -/
theorem entry_dominates (hentry : f.entryId? = some entry) : f.entryGraph.Dominates entry b :=
  fun _ hroot hr ↦ absurd (Option.some.inj (hroot.symm.trans hentry)) hr

end KirFunction

/-- The computation ends.  Its table is that of the paths from the entry, for the blocks that the
entry reaches, exactly where they are entered at the entry only. -/
theorem computeKirDominators_paths (f : KirFunction) :
    (∀ entry, f.entryId? = some entry → ∃ rows,
      f.dominatorRows entry (f.blocks.length * f.blocks.length + 1) (f.startRows entry) =
        some rows) ∧
    ((∀ a b, f.entryGraph.Reachable b →
        (f.computeKirDominators a b = true ↔ f.entryGraph.Dominates a b)) ↔
      f.EnteredAtEntryOnly) := by
  refine ⟨fun entry hentry ↦ ?_, fun h entry hentry r hr hre hnone b hb havoid ↦ ?_,
    fun h a b hb ↦ ?_⟩
  · obtain ⟨rows, hrows, -⟩ := KirFunction.dominatorRows_returns
      (f.blocks.length * f.blocks.length + 1) (KirFunction.RowsInvariant.start hentry)
      (Nat.lt_succ_of_le (KirFunction.rowBits_startRows_le entry))
    exact ⟨rows, hrows⟩
  · -- the entry dominates the block on all its paths, but not on those from the other block
    have hcomputed := (h entry b hb).mpr (KirFunction.entry_dominates hentry)
    rw [KirFunction.computeKirDominators_iff hentry (KirFunction.mem_blockIds_of_entry hentry)
      (KirFunction.mem_blockIds_of_reachable hb)] at hcomputed
    exact hcomputed r (Or.inr ⟨hr, hnone⟩) hre havoid
  · have hentry : ∃ entry, f.entryId? = some entry := by
      obtain ⟨r, hroot, -⟩ := hb
      exact ⟨r, hroot⟩
    obtain ⟨entry, hentry⟩ := hentry
    by_cases ha : a ∈ f.blockIds
    · rw [KirFunction.computeKirDominators_iff hentry ha
        (KirFunction.mem_blockIds_of_reachable hb), h.dominates_iff hb]
    · refine iff_of_false (fun hcomputed ↦ ha ?_) (KirFunction.not_dominates_of_notMem ha hb)
      exact KirFunction.mem_blockIds_of_computed hentry hcomputed

/-- A function with a block behind its return that jumps to the return. -/
def strayFunction : KirFunction :=
  ⟨0, "stray", true, [], .void, [], [], [],
    [⟨0, "bb0", [], [], [], .jump ⟨1, [], []⟩⟩,
      ⟨1, "bb1", [], [], [], .return none [] 0⟩,
      ⟨2, "bb2", [], [], [], .jump ⟨1, [], []⟩⟩]⟩

def strayModule : KirModule := ⟨⟨.c, .checked, .checked, .disabled⟩, none, [], [strayFunction]⟩

/-- The entry does not dominate the block it jumps to, though every path from it starts there. -/
theorem computeKirDominators_stray :
    strayModule.valueErrors = [] ∧
      strayModule.memoryErrors KirFunction.computeKirDominators = [] ∧
      strayFunction ∈ strayModule.functions ∧ ∃ a b, strayFunction.entryGraph.Reachable b ∧
        ¬ (strayFunction.computeKirDominators a b = true ↔
          strayFunction.entryGraph.Dominates a b) := by
  refine ⟨by decide +kernel, by decide +kernel, List.mem_singleton_self _, 0, 1, ?_, ?_⟩
  · exact ⟨0, rfl, .single ⟨by decide, by decide⟩⟩
  · have hcomputed : ¬ strayFunction.computeKirDominators 0 1 = true := by decide +kernel
    exact fun hiff ↦ hcomputed (hiff.mpr (KirFunction.entry_dominates rfl))

end CalcKernel
