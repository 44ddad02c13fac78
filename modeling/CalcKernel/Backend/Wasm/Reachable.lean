import CalcKernel.Backend.Wasm.Control
import Mathlib.Data.List.Perm.Subperm

/-!
# Reachable blocks

The queue of `reachable_blocks` ends with the blocks that the edges lead to from the
entry.
-/

namespace CalcKernel

open Relation

theorem outgoingEdges_targets (t : KirTerminator) :
    t.outgoingEdges.map (·.2.target) = t.successors := by
  cases t <;> simp [KirTerminator.outgoingEdges, KirTerminator.successors, KirTerminator.edges]

theorem length_outgoingEdges (t : KirTerminator) : t.outgoingEdges.length ≤ 2 := by
  cases t <;> simp [KirTerminator.outgoingEdges]

namespace KirFunction

/-- The edges lead from the entry to the block. -/
def Reached (f : KirFunction) (x : BlockId) : Prop :=
  ∃ entry, f.entryId? = some entry ∧ ReflTransGen f.flowGraph.edge entry x

/-- Blocks have ids of their own, and the targets of reached blocks exist. -/
structure WellFormedFlow (f : KirFunction) : Prop where
  nodup : f.blockIds.Nodup
  nonempty : f.blocks ≠ []
  targets : ∀ x b, f.Reached x → f.block? x = some b → ∀ t ∈ b.terminator.successors,
    t ∈ f.blockIds

variable {f : KirFunction} {entry x y : BlockId} {b : KirBlock}

theorem block?_isSome (hx : x ∈ f.blockIds) : ∃ b, f.block? x = some b := by
  obtain ⟨b, hb, rfl⟩ := List.mem_map.mp hx
  cases hfind : f.block? b.id with
  | some c => exact ⟨c, Eq.refl _⟩
  | none =>
      have hnone := List.find?_eq_none.mp hfind b hb
      simp at hnone

theorem mem_blockIds_of_block? (h : f.block? x = some b) : x ∈ f.blockIds := by
  obtain ⟨hb, rfl⟩ := mem_blocks_of_block? h
  exact List.mem_map_of_mem hb

theorem edge_of_block? (h : f.block? x = some b) (hy : y ∈ b.terminator.successors)
    (hmem : y ∈ f.blockIds) : f.flowGraph.edge x y := by
  obtain ⟨hb, rfl⟩ := mem_blocks_of_block? h
  exact ⟨mem_flowPredecessors.mpr ⟨b, hb, Eq.refl _, hy⟩, hmem⟩

theorem block?_of_edge (hnodup : f.blockIds.Nodup) (h : f.flowGraph.edge x y) :
    ∃ b, f.block? x = some b ∧ y ∈ b.terminator.successors := by
  obtain ⟨b, hb, rfl, hy⟩ := mem_flowPredecessors.mp h.1
  exact ⟨b, block?_of_mem hnodup hb, hy⟩

theorem entryId_mem (h : f.entryId? = some entry) : entry ∈ f.blockIds := by
  obtain ⟨b, hb, rfl⟩ := Option.map_eq_some_iff.mp h
  exact List.mem_map_of_mem (List.mem_of_mem_head? hb)

theorem Reached.mem_blockIds (h : f.Reached x) : x ∈ f.blockIds := by
  obtain ⟨entry, hentry, hpath⟩ := h
  cases hpath with
  | refl => exact entryId_mem hentry
  | tail _ hedge => exact hedge.2

theorem Reached.tail (h : f.Reached x) (hedge : f.flowGraph.edge x y) : f.Reached y := by
  obtain ⟨entry, hentry, hpath⟩ := h
  exact ⟨entry, hentry, hpath.tail hedge⟩

theorem Reached.reachable (h : f.Reached x) : f.flowGraph.Reachable x := by
  obtain ⟨entry, hentry, hpath⟩ := h
  exact ⟨entry, Or.inl hentry, hpath⟩

theorem reached_entry (h : f.entryId? = some entry) : f.Reached entry := ⟨entry, h, .refl⟩

/-- What holds between two rounds of the queue. -/
structure QueueInvariant (f : KirFunction) (entry : BlockId) (s : Worklist) : Prop where
  nodup : s.seen.Nodup
  reached : ∀ x, x ∈ s.seen ∨ x ∈ s.work → f.Reached x
  entry : entry ∈ s.seen ∨ entry ∈ s.work
  closed : ∀ x ∈ s.seen, ∃ b, f.block? x = some b ∧ ∀ t ∈ b.terminator.successors,
    t ∈ f.blockIds ∧ (t ∈ s.seen ∨ t ∈ s.work)
  small : s.seen.length ≤ maxReachableBlocks

theorem nodup_orderedInsert {l : List BlockId} (hl : l.Nodup) (hx : x ∉ l) :
    (l.orderedInsert (· ≤ ·) x).Nodup :=
  (List.perm_orderedInsert _ x l).nodup_iff.mpr (List.nodup_cons.mpr ⟨hx, hl⟩)

theorem length_orderedInsert (l : List BlockId) :
    (l.orderedInsert (· ≤ ·) x).length = l.length + 1 :=
  (List.perm_orderedInsert _ x l).length_eq

theorem visitBlock_cons (seen work : List BlockId) : f.visitBlock ⟨seen, x :: work⟩ =
    if x ∈ seen then some ⟨seen, work⟩
    else if maxReachableBlocks < seen.length + 1 then none
    else (f.block? x).bind fun b ↦
      if b.terminator.successors.all (f.blockIds.contains ·) then
        some ⟨seen.orderedInsert (· ≤ ·) x,
          work ++ b.terminator.successors.filter (· ∉ seen.orderedInsert (· ≤ ·) x)⟩
      else none := by
  simp only [visitBlock, length_orderedInsert, outgoingEdges_targets, Option.bind_eq_bind]

/-- The two ways a round goes on. -/
theorem visitBlock_cases {s t : Worklist} (h : f.visitBlock s = some t) (hwork : s.work ≠ []) :
    ∃ x work, s.work = x :: work ∧
      ((x ∈ s.seen ∧ t = ⟨s.seen, work⟩) ∨
        (x ∉ s.seen ∧ s.seen.length + 1 ≤ maxReachableBlocks ∧ ∃ b, f.block? x = some b ∧
          (∀ target ∈ b.terminator.successors, target ∈ f.blockIds) ∧
          t = ⟨s.seen.orderedInsert (· ≤ ·) x,
            work ++ b.terminator.successors.filter (· ∉ s.seen.orderedInsert (· ≤ ·) x)⟩)) := by
  obtain ⟨seen, work⟩ := s
  cases work with
  | nil => exact absurd (Eq.refl _) hwork
  | cons x work =>
      refine ⟨x, work, Eq.refl _, ?_⟩
      rw [visitBlock_cons] at h
      split at h
      · rename_i hx
        exact Or.inl ⟨hx, (Option.some.inj h).symm⟩
      · rename_i hx
        split at h
        · cases h
        · rename_i hsmall
          obtain ⟨b, hb, h⟩ := Option.bind_eq_some_iff.mp h
          split at h
          · rename_i htargets
            refine Or.inr ⟨hx, by simpa using hsmall, b, hb, ?_, (Option.some.inj h).symm⟩
            simpa using htargets
          · cases h

theorem QueueInvariant.round {s t : Worklist} (hinv : QueueInvariant f entry s)
    (hwork : s.work ≠ []) (h : f.visitBlock s = some t) : QueueInvariant f entry t := by
  obtain ⟨x, work, hs, ⟨hx, rfl⟩ | ⟨hx, hsmall, b, hb, htargets, rfl⟩⟩ := visitBlock_cases h hwork
  · have hmove : ∀ y, y ∈ s.seen ∨ y ∈ s.work → y ∈ s.seen ∨ y ∈ work := by
      intro y hy
      rw [hs, List.mem_cons] at hy
      rcases hy with hy | rfl | hy
      · exact Or.inl hy
      · exact Or.inl hx
      · exact Or.inr hy
    refine ⟨hinv.nodup, fun y hy ↦ hinv.reached y (hy.imp_right fun h ↦ ?_),
      hmove entry hinv.entry, fun y hy ↦ ?_, hinv.small⟩
    · rw [hs]
      exact List.mem_cons_of_mem _ h
    · obtain ⟨b, hb, htargets⟩ := hinv.closed y hy
      exact ⟨b, hb, fun t ht ↦ ⟨(htargets t ht).1, hmove t (htargets t ht).2⟩⟩
  · have hxReached : f.Reached x := hinv.reached x (Or.inr (hs ▸ List.mem_cons_self))
    have hmove : ∀ y, y ∈ s.seen ∨ y ∈ s.work → y ∈ s.seen.orderedInsert (· ≤ ·) x ∨
        y ∈ work ++ b.terminator.successors.filter (· ∉ s.seen.orderedInsert (· ≤ ·) x) := by
      intro y hy
      rw [hs, List.mem_cons] at hy
      rw [List.mem_orderedInsert, List.mem_append]
      rcases hy with hy | rfl | hy
      · exact Or.inl (Or.inr hy)
      · exact Or.inl (Or.inl (Eq.refl _))
      · exact Or.inr (Or.inl hy)
    refine ⟨nodup_orderedInsert hinv.nodup hx, fun y hy ↦ ?_, hmove entry hinv.entry,
      fun y hy ↦ ?_, ?_⟩
    · rw [List.mem_orderedInsert, List.mem_append, List.mem_filter] at hy
      rcases hy with (rfl | hy) | hy | hy
      · exact hxReached
      · exact hinv.reached y (Or.inl hy)
      · exact hinv.reached y (Or.inr (hs ▸ List.mem_cons_of_mem _ hy))
      · exact hxReached.tail (edge_of_block? hb hy.1 (htargets y hy.1))
    · rcases (List.mem_orderedInsert _).mp hy with rfl | hy
      · refine ⟨b, hb, fun t ht ↦ ⟨htargets t ht, ?_⟩⟩
        by_cases hseen : t ∈ s.seen.orderedInsert (· ≤ ·) y
        · exact Or.inl hseen
        · exact Or.inr (List.mem_append_right _ (List.mem_filter.mpr ⟨ht, by simpa using hseen⟩))
      · obtain ⟨c, hc, htargets'⟩ := hinv.closed y hy
        exact ⟨c, hc, fun t ht ↦ ⟨(htargets' t ht).1, hmove t (htargets' t ht).2⟩⟩
    · rw [length_orderedInsert]
      exact hsmall

/-- The set of reachable blocks. -/
structure ReachableSet (f : KirFunction) (reachable : List BlockId) : Prop where
  idsNodup : f.blockIds.Nodup
  nodup : reachable.Nodup
  mem : ∀ x, x ∈ reachable ↔ f.Reached x
  block : ∀ x ∈ reachable, ∃ b, f.block? x = some b ∧ ∀ t ∈ b.terminator.successors,
    t ∈ f.blockIds ∧ t ∈ reachable

theorem QueueInvariant.start (hentry : f.entryId? = some entry) :
    QueueInvariant f entry ⟨[], [entry]⟩ := by
  refine ⟨List.nodup_nil, fun x hx ↦ ?_, Or.inr (List.mem_singleton_self _), by simp, by simp⟩
  obtain rfl : x = entry := by simpa using hx
  exact reached_entry hentry

theorem QueueInvariant.reachableSet {s : Worklist} (hnodup : f.blockIds.Nodup)
    (hentry : f.entryId? = some entry) (hinv : QueueInvariant f entry s) (hwork : s.work = []) :
    ReachableSet f s.seen := by
  have hclosed : ∀ x ∈ s.seen, ∃ b, f.block? x = some b ∧ ∀ t ∈ b.terminator.successors,
      t ∈ f.blockIds ∧ t ∈ s.seen := by
    intro x hx
    obtain ⟨b, hb, htargets⟩ := hinv.closed x hx
    refine ⟨b, hb, fun t ht ↦ ⟨(htargets t ht).1, ?_⟩⟩
    exact (htargets t ht).2.resolve_right (by simp [hwork])
  refine ⟨hnodup, hinv.nodup, fun x ↦ ⟨fun hx ↦ hinv.reached x (Or.inl hx), ?_⟩, hclosed⟩
  rintro ⟨entry', hentry', hpath⟩
  obtain rfl : entry = entry' := Option.some.inj (hentry.symm.trans hentry')
  induction hpath with
  | refl => exact hinv.entry.resolve_right (by simp [hwork])
  | @tail y z _ hedge ih =>
      obtain ⟨b, hb, htargets⟩ := hclosed y ih
      obtain ⟨c, hc, hz⟩ := block?_of_edge hnodup hedge
      cases hb.symm.trans hc
      exact (htargets z hz).2

theorem reachableBlocks_eq_some {reachable : List BlockId}
    (h : f.reachableBlocks = some reachable) : ReachableSet f reachable := by
  unfold reachableBlocks at h
  split at h
  · rename_i hnodup
    obtain ⟨entry, hentry, h⟩ := Option.bind_eq_some_iff.mp h
    obtain ⟨s, hloop, h⟩ := Option.bind_eq_some_iff.mp h
    cases h
    obtain ⟨hinv, hdone⟩ := Lib.whileLoop.invariant (I := QueueInvariant f entry)
      (fun s t hs hcond hbody ↦ hs.round (by simpa using hcond) hbody)
      (QueueInvariant.start hentry) hloop
    exact hinv.reachableSet hnodup hentry (by simpa using hdone)
  · cases h

/-- At most this many blocks are reached. -/
def ReachedWithin (f : KirFunction) (n : Nat) : Prop :=
  ∀ l : List BlockId, l.Nodup → (∀ x ∈ l, f.Reached x) → l.length ≤ n

theorem QueueInvariant.visitBlock_returns {s : Worklist} (hwf : f.WellFormedFlow)
    (hsize : f.ReachedWithin maxReachableBlocks) (hinv : QueueInvariant f entry s)
    (hwork : s.work ≠ []) : ∃ t, f.visitBlock s = some t ∧
      2 * (f.blocks.length - t.seen.length) + t.work.length <
        2 * (f.blocks.length - s.seen.length) + s.work.length := by
  obtain ⟨seen, work⟩ := s
  cases work with
  | nil => exact absurd (Eq.refl _) hwork
  | cons x work =>
      rw [visitBlock_cons]
      by_cases hx : x ∈ seen
      · rw [if_pos hx]
        exact ⟨_, Eq.refl _, by simp⟩
      · rw [if_neg hx]
        have hreached : ∀ y ∈ seen.orderedInsert (· ≤ ·) x, f.Reached y := by
          intro y hy
          rcases (List.mem_orderedInsert _).mp hy with rfl | hy
          · exact hinv.reached y (Or.inr List.mem_cons_self)
          · exact hinv.reached y (Or.inl hy)
        have hnodup : (seen.orderedInsert (· ≤ ·) x).Nodup := nodup_orderedInsert hinv.nodup hx
        have hsmall := hsize _ hnodup hreached
        have hlen : (seen.orderedInsert (· ≤ ·) x).length ≤ f.blockIds.length :=
          (List.subperm_of_subset hnodup fun y hy ↦ (hreached y hy).mem_blockIds).length_le
        rw [length_orderedInsert, blockIds, List.length_map] at hlen
        have hxReached := hinv.reached x (Or.inr List.mem_cons_self)
        obtain ⟨b, hb⟩ := block?_isSome hxReached.mem_blockIds
        have htargets := hwf.targets x b hxReached hb
        rw [length_orderedInsert] at hsmall
        rw [if_neg (Nat.not_lt.mpr hsmall), hb, Option.bind_some,
          if_pos (by simpa using htargets)]
        refine ⟨_, Eq.refl _, ?_⟩
        have htwo : b.terminator.successors.length ≤ 2 := by
          rw [← outgoingEdges_targets, List.length_map]
          exact length_outgoingEdges b.terminator
        have hfilter := (List.length_filter_le (· ∉ seen.orderedInsert (· ≤ ·) x)
          b.terminator.successors).trans htwo
        simp only [length_orderedInsert, List.length_append, List.length_cons]
        omega

theorem reachableBlocks_returns (hwf : f.WellFormedFlow)
    (hsize : f.ReachedWithin maxReachableBlocks) :
    ∃ reachable, f.reachableBlocks = some reachable := by
  obtain ⟨entry, hentry⟩ : ∃ entry, f.entryId? = some entry := by
    cases hblocks : f.blocks with
    | nil => exact absurd hblocks hwf.nonempty
    | cons b blocks => exact ⟨b.id, by simp [entryId?, hblocks]⟩
  obtain ⟨s, hloop, _⟩ := Lib.whileLoop.terminates (fun s : Worklist ↦ !s.work.isEmpty)
    f.visitBlock (2 * f.blocks.length + 1) (I := QueueInvariant f entry)
    (fun s ↦ 2 * (f.blocks.length - s.seen.length) + s.work.length)
    (fun s hinv hcond ↦ by
      have hwork : s.work ≠ [] := by simpa using hcond
      obtain ⟨t, ht, hlt⟩ := hinv.visitBlock_returns hwf hsize hwork
      exact ⟨t, ht, hinv.round hwork ht, hlt⟩)
    (QueueInvariant.start hentry) (by simp)
  refine ⟨s.seen, ?_⟩
  rw [reachableBlocks, if_pos hwf.nodup, hentry]
  simp only [Option.bind_eq_bind, Option.bind_some, hloop]

end KirFunction

end CalcKernel
