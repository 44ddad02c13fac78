import CalcKernel.Optimizer.CfgSound

/-!
# Blocks the CFG pass removes

Blocks not reached from the entry are on no run.  Blocks that only forward are removed one at
a time until none is left, and the runs skip them.
-/

namespace CalcKernel

open Lib Relation

/-! ## What is reached -/

theorem exists_foldl_insert (targets reachable : List BlockId) :
    ∃ l, targets.foldl (fun r target ↦ r.insert target) reachable = l ++ reachable := by
  induction targets generalizing reachable with
  | nil => exact ⟨[], rfl⟩
  | cons target targets ih =>
      obtain ⟨l, hl⟩ := ih (reachable.insert target)
      rw [List.foldl_cons, hl]
      by_cases hmem : target ∈ reachable
      · exact ⟨l, by rw [List.insert_of_mem hmem]⟩
      · exact ⟨l ++ [target], by rw [List.insert_of_not_mem hmem, List.append_assoc]; rfl⟩

theorem mem_insertTargets {targets reachable : List BlockId} {x : BlockId} :
    x ∈ targets.foldl (fun r target ↦ r.insert target) reachable ↔ x ∈ reachable ∨ x ∈ targets := by
  induction targets generalizing reachable with
  | nil => simp
  | cons target targets ih =>
      rw [List.foldl_cons, ih, List.mem_insert_iff, List.mem_cons]
      exact ⟨fun h ↦ h.elim (fun h ↦ h.elim (.inr ∘ .inl) .inl) (.inr ∘ .inr),
        fun h ↦ h.elim (.inl ∘ .inr) fun h ↦ h.elim (.inl ∘ .inl) .inr⟩

theorem nodup_insertTargets (targets : List BlockId) {reachable : List BlockId}
    (h : reachable.Nodup) : (targets.foldl (fun r target ↦ r.insert target) reachable).Nodup := by
  induction targets generalizing reachable with
  | nil => exact h
  | cons target targets ih => exact ih h.insert

theorem exists_reachPass (blocks : List KirBlock) (reachable : List BlockId) :
    ∃ l, reachPass blocks reachable = l ++ reachable := by
  induction blocks generalizing reachable with
  | nil => exact ⟨[], rfl⟩
  | cons b blocks ih =>
      rw [reachPass, List.foldl_cons, ← reachPass]
      split
      · obtain ⟨l, hl⟩ := exists_foldl_insert b.terminator.successors reachable
        obtain ⟨l', hl'⟩ := ih (l ++ reachable)
        exact ⟨l' ++ l, by rw [hl, hl', List.append_assoc]⟩
      · exact ih reachable

theorem reachPass_subset (blocks : List KirBlock) (reachable : List BlockId) :
    reachable ⊆ reachPass blocks reachable := by
  obtain ⟨l, hl⟩ := exists_reachPass blocks reachable
  rw [hl]
  exact List.subset_append_right l reachable

theorem mem_reachPass {blocks : List KirBlock} {reachable : List BlockId} {b : KirBlock}
    (hb : b ∈ blocks) (hid : b.id ∈ reachable) {target : BlockId}
    (htarget : target ∈ b.terminator.successors) : target ∈ reachPass blocks reachable := by
  induction blocks generalizing reachable with
  | nil => cases hb
  | cons c blocks ih =>
      rw [reachPass, List.foldl_cons, ← reachPass]
      rcases List.mem_cons.mp hb with rfl | hb
      · rw [if_pos hid]
        exact reachPass_subset _ _ (mem_insertTargets.mpr (.inr htarget))
      · refine ih hb ?_
        split
        · exact mem_insertTargets.mpr (.inl hid)
        · exact hid

theorem reachPass_subset_targets {blocks : List KirBlock} {reachable known : List BlockId}
    (hreachable : reachable ⊆ known) (htargets : blocks.flatMap (·.terminator.successors) ⊆ known) :
    reachPass blocks reachable ⊆ known := by
  induction blocks generalizing reachable with
  | nil => exact hreachable
  | cons b blocks ih =>
      rw [reachPass, List.foldl_cons, ← reachPass]
      rw [List.flatMap_cons, List.append_subset] at htargets
      refine ih ?_ htargets.2
      split
      · intro x hx
        rcases mem_insertTargets.mp hx with hx | hx
        · exact hreachable hx
        · exact htargets.1 hx
      · exact hreachable

theorem nodup_reachPass (blocks : List KirBlock) {reachable : List BlockId}
    (h : reachable.Nodup) : (reachPass blocks reachable).Nodup := by
  induction blocks generalizing reachable with
  | nil => exact h
  | cons b blocks ih =>
      rw [reachPass, List.foldl_cons, ← reachPass]
      refine ih ?_
      split
      · exact nodup_insertTargets _ h
      · exact h

/-- What the passes end with contains the start and the targets of its blocks. -/
theorem reachPasses_closed {blocks : List KirBlock} {rounds : Nat} {start reachable : List BlockId}
    (h : reachPasses blocks rounds start = some reachable) :
    start ⊆ reachable ∧ ∀ b ∈ blocks, b.id ∈ reachable →
      ∀ target ∈ b.terminator.successors, target ∈ reachable := by
  induction rounds generalizing start with
  | zero => cases h
  | succ rounds ih =>
      unfold reachPasses at h
      dsimp only at h
      split at h
      · rename_i hlength
        cases h
        obtain ⟨l, hl⟩ := exists_reachPass blocks start
        have hnil : l = [] := by
          rw [hl, List.length_append] at hlength
          exact List.length_eq_zero_iff.mp (by omega)
        rw [hl, hnil, List.nil_append]
        refine ⟨fun x hx ↦ hx, fun b hb hid target htarget ↦ ?_⟩
        have hmem := mem_reachPass hb hid htarget
        rwa [hl, hnil, List.nil_append] at hmem
      · obtain ⟨hsub, hclosed⟩ := ih h
        exact ⟨fun x hx ↦ hsub (reachPass_subset blocks start hx), hclosed⟩

theorem reachPasses_returns {blocks : List KirBlock} {known start : List BlockId} {rounds : Nat}
    (hstart : start.Nodup) (hknown : start ⊆ known)
    (htargets : blocks.flatMap (·.terminator.successors) ⊆ known)
    (hrounds : known.length + 1 ≤ start.length + rounds) :
    ∃ reachable, reachPasses blocks rounds start = some reachable := by
  have hpass := reachPass_subset_targets hknown htargets
  have hnodup := nodup_reachPass blocks hstart
  have hbound : (reachPass blocks start).length ≤ known.length :=
    (List.subperm_of_subset hnodup hpass).length_le
  induction rounds generalizing start with
  | zero =>
      have hle : start.length ≤ known.length := (List.subperm_of_subset hstart hknown).length_le
      omega
  | succ rounds ih =>
      unfold reachPasses
      dsimp only
      split
      · exact ⟨_, rfl⟩
      · rename_i hne
        have hless : start.length < (reachPass blocks start).length := by
          obtain ⟨l, hl⟩ := exists_reachPass blocks start
          have hlength := congrArg List.length hl
          rw [List.length_append] at hlength
          omega
        have hpass' := reachPass_subset_targets hpass htargets
        have hnodup' := nodup_reachPass blocks hnodup
        exact ih hnodup hpass (by omega) hpass' hnodup'
          (List.subperm_of_subset hnodup' hpass').length_le

theorem KirFunction.removeUnreachable_returns (f : KirFunction) :
    ∃ g, f.removeUnreachable = some g := by
  unfold KirFunction.removeUnreachable
  cases f.blocks.head? with
  | none => exact ⟨f, rfl⟩
  | some entry =>
      have hstart : [entry.id] ⊆ entry.id :: f.blocks.flatMap (·.terminator.successors) := by simp
      have hrounds : (entry.id :: f.blocks.flatMap (·.terminator.successors)).length + 1 ≤
          [entry.id].length + ((f.blocks.flatMap (·.terminator.successors)).length + 1) := by
        simp only [List.length_cons, List.length_nil]
        omega
      obtain ⟨reachable, hreachable⟩ := reachPasses_returns (List.nodup_singleton _) hstart
        (List.subset_cons_self _ _) hrounds
      exact ⟨_, by dsimp only; rw [hreachable]; rfl⟩

/-- A removal of unreached blocks, unless there are no blocks at all. -/
theorem KirFunction.removeUnreachable_eq {f g : KirFunction} (h : f.removeUnreachable = some g) :
    ∃ reachable : List BlockId, g = { f with blocks := f.blocks.filter (·.id ∈ reachable) } ∧
      (∀ b, f.blocks.head? = some b → b.id ∈ reachable) ∧
      ∀ b ∈ f.blocks, b.id ∈ reachable → ∀ target ∈ b.terminator.successors,
        target ∈ reachable := by
  unfold KirFunction.removeUnreachable at h
  split at h
  · rename_i hnone
    cases h
    have hnil : f.blocks = [] := List.head?_eq_none_iff.mp hnone
    refine ⟨[], ?_, by simp [hnone], by simp [hnil]⟩
    rw [hnil, List.filter_nil, ← hnil]
  · rename_i entry hentry
    obtain ⟨reachable, hreachable, rfl⟩ := Option.map_eq_some_iff.mp h
    obtain ⟨hstart, hclosed⟩ := reachPasses_closed hreachable
    refine ⟨reachable, rfl, fun b hb ↦ ?_, hclosed⟩
    rw [hentry] at hb
    cases hb
    exact hstart List.mem_cons_self

theorem block?_filter {f : KirFunction} {p : BlockId → Bool} {id : BlockId} {b : KirBlock}
    (h : f.block? id = some b) (hp : p id = true) :
    ({ f with blocks := f.blocks.filter (p ·.id) } : KirFunction).block? id = some b := by
  have hsame : (fun c : KirBlock ↦ decide (p c.id = true ∧ decide (c.id = id) = true)) =
      fun c ↦ decide (c.id = id) := by
    funext c
    by_cases hc : c.id = id
    · simp [hc, hp]
    · simp [hc]
  rw [KirFunction.block?, List.find?_filter, ← h, KirFunction.block?]
  exact congrArg (List.find? · f.blocks) hsame

theorem KirFunction.removeUnreachable_refined {f g : KirFunction}
    (h : f.removeUnreachable = some g) : Nonempty (Rewiring f g) := by
  obtain ⟨reachable, rfl, hentry, hclosed⟩ := KirFunction.removeUnreachable_eq h
  refine ⟨Rewiring.ofTerminators (fun _ ↦ True) (fun b ↦ b.id ∈ reachable) (·.terminator) rfl rfl
    (fun b hb ↦ ⟨hentry b hb, ?_⟩) (fun {id b} hb hkeep ↦ ?_) (fun h ↦ h) ?_
    (fun _ ↦ trivial) (fun _ _ _ _ ↦ trivial) (fun _ _ ↦ trivial)⟩
  · obtain ⟨rest, hrest⟩ : ∃ rest, f.blocks = b :: rest := List.head?_eq_some_iff.mp hb
    dsimp only
    rw [hrest, List.filter_cons, if_pos (decide_eq_true (hentry b hb))]
    rfl
  · obtain rfl := (KirFunction.mem_blocks_of_block? hb).2
    exact block?_filter (p := fun id ↦ decide (id ∈ reachable)) hb (decide_eq_true hkeep)
  · intro b hb hkeep env e _ htaken
    refine ⟨htaken, fun c hc ↦ ?_⟩
    rw [(KirFunction.mem_blocks_of_block? hc).2]
    exact hclosed b hb hkeep _ (List.mem_map_of_mem (KirTerminator.taken_mem_edges htaken))

/-! ## Blocks that only forward -/

section Forwarding

variable {f : KirFunction} {protected_ : List ValueId} {index : Nat}

/-- What is found at the index. -/
theorem forwardingIndex_eq_some (h : forwardingIndex f protected_ = some index) :
    ∃ k bridge outgoing, index = k + 1 ∧ f.blocks[index]? = some bridge ∧
      bridge.instructions = [] ∧ bridge.terminator = .jump outgoing ∧
      outgoing.target ≠ bridge.id ∧ hasNonlocalParameterUses f bridge protected_ = false := by
  obtain ⟨k, hk, rfl⟩ := Option.map_eq_some_iff.mp h
  obtain ⟨hlt, hfound, -⟩ := List.findIdx?_eq_some_iff_getElem.mp hk
  obtain ⟨hforward, hlocal⟩ := (Bool.and_eq_true _ _).mp hfound
  obtain ⟨hempty, hjump⟩ := (Bool.and_eq_true _ _).mp hforward
  have hplace : f.blocks[k + 1]? = some (f.blocks.tail[k]) := by
    rw [← List.getElem?_eq_getElem hlt, List.getElem?_tail]
  split at hjump
  · rename_i outgoing hterminator
    exact ⟨k, _, outgoing, rfl, hplace, List.isEmpty_iff.mp hempty, hterminator,
      by simpa using hjump, by simpa using hlocal⟩
  · cases hjump

theorem eraseIdx_eq_filter {blocks : List KirBlock} (hids : (blocks.map (·.id)).Nodup) {i : Nat}
    {bridge : KirBlock} (h : blocks[i]? = some bridge) :
    blocks.eraseIdx i = blocks.filter fun b ↦ decide (b.id ≠ bridge.id) := by
  induction blocks generalizing i with
  | nil => cases h
  | cons b blocks ih =>
      obtain ⟨hb, hids⟩ := List.nodup_cons.mp hids
      cases i with
      | zero =>
          cases h
          rw [List.eraseIdx_cons_zero, List.filter_cons, if_neg (by simp)]
          refine (List.filter_eq_self.mpr fun c hc ↦ decide_eq_true ?_).symm
          intro heq
          exact hb (List.mem_map.mpr ⟨c, hc, heq⟩)
      | succ i =>
          have hne : b.id ≠ bridge.id := fun heq ↦
            hb (List.mem_map.mpr ⟨bridge, List.mem_of_getElem? h, heq.symm⟩)
          rw [List.eraseIdx_cons_succ, List.filter_cons, if_pos (decide_eq_true hne), ih hids h]

/-- The block that forwards is skipped, its predecessors jump where it does. -/
theorem withoutForwarding_refined (hids : f.blockIds.Nodup)
    (h : forwardingIndex f protected_ = some index) :
    Nonempty (Rewiring f (f.withoutForwarding index)) := by
  obtain ⟨k, bridge, outgoing, rfl, hplace, hempty, hterminator, htarget, hlocal⟩ :=
    forwardingIndex_eq_some h
  have hmem : bridge ∈ f.blocks := List.mem_of_getElem? hplace
  have heq : f.withoutForwarding (k + 1) =
      { f with blocks :=
          (f.blocks.filter (·.id ≠ bridge.id)).map (·.mapEdges (forwardEdge bridge outgoing)) } := by
    rw [KirFunction.withoutForwarding, hplace]
    dsimp only
    rw [hterminator, eraseIdx_eq_filter hids hplace]
  have hskipped : Skipped f protected_ (· = bridge) :=
    ⟨fun h ↦ h ▸ hmem, fun h ↦ h ▸ hlocal⟩
  have hout : outgoing ∈ bridge.terminator.edges := by
    rw [hterminator]
    exact List.mem_singleton_self _
  rw [heq]
  refine ⟨hskipped.rewiring hids (fun _ ↦ True) (fun b ↦ b.id ≠ bridge.id)
    (fun _ ↦ forwardEdge bridge outgoing) 1 rfl rfl (fun b hb ↦ ?_) (fun {id b} hb hkeep ↦ ?_) ?_
    (fun _ ↦ trivial) (fun _ _ _ _ ↦ trivial) (fun _ _ ↦ trivial)⟩
  · obtain ⟨rest, hrest⟩ : ∃ rest, f.blocks = b :: rest := List.head?_eq_some_iff.mp hb
    have hne : b.id ≠ bridge.id := by
      intro heq
      have hnodup : (b.id :: rest.map (·.id)).Nodup := by
        rw [← List.map_cons, ← hrest]
        exact hids
      rw [hrest, List.getElem?_cons_succ] at hplace
      exact (List.nodup_cons.mp hnodup).1 (heq ▸ List.mem_map_of_mem (List.mem_of_getElem? hplace))
    refine ⟨hne, ?_⟩
    dsimp only
    rw [hrest, List.filter_cons, if_pos (decide_eq_true hne)]
    rfl
  · obtain rfl := (KirFunction.mem_blocks_of_block? hb).2
    have hfilter := block?_filter (p := fun id ↦ decide (id ≠ bridge.id)) hb
      (decide_eq_true hkeep)
    exact block?_map (T := (·.mapEdges (forwardEdge bridge outgoing))) (fun _ ↦ rfl) hfilter
  · intro b hb hkeep edge hedge
    unfold forwardEdge
    by_cases hto : edge.target = bridge.id
    · rw [if_neg (not_not_intro hto)]
      have hblock : f.block? edge.target = some bridge := hto ▸ KirFunction.block?_of_mem hids hmem
      refine ⟨⟨1, le_rfl, .step ⟨hblock, hempty, fun p hp ↦ ⟨bridge, rfl, List.mem_map_of_mem hp⟩,
        fun a ha ↦ hskipped.sees_arg hids hmem hout ha, fun _ _ _ _ ↦ ?_⟩ (.refl _)⟩,
        fun c hc ↦ ?_⟩
      · rw [hterminator]
        rfl
      · rw [(KirFunction.mem_blocks_of_block? hc).2]
        exact htarget
    · rw [if_pos hto]
      refine ⟨⟨0, Nat.zero_le _, .refl edge⟩, fun c hc ↦ ?_⟩
      rw [(KirFunction.mem_blocks_of_block? hc).2]
      exact hto

theorem withoutForwarding_length (h : forwardingIndex f protected_ = some index) :
    (f.withoutForwarding index).blocks.length + 1 = f.blocks.length := by
  obtain ⟨k, bridge, outgoing, rfl, hplace, -, hterminator, -⟩ := forwardingIndex_eq_some h
  have hlt := (List.getElem?_eq_some_iff.mp hplace).1
  rw [KirFunction.withoutForwarding, hplace]
  dsimp only
  rw [hterminator]
  dsimp only
  rw [List.length_map, List.length_eraseIdx_of_lt hlt]
  omega

end Forwarding

end CalcKernel
