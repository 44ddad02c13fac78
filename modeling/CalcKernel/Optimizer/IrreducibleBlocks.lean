import CalcKernel.Kir.PathDominance
import CalcKernel.Optimizer.NaturalLoops

/-!
# Blocks on cycles of forward edges

The traversal and the gathering of components have a fixed price, and the blocks that are found
are those on cycles of edges that do not lead back to a dominator.
-/

namespace CalcKernel

open Lib Relation

/-! ## The traversal -/

section Components

variable {next : BlockId → List BlockId} {s : Traversal BlockId} {l : List BlockId}

theorem pushes_next : Traversal.Pushes (fun _ ↦ next) next where
  subset _ _ _ hy := hy
  covers _ _ _ hy := .inr hy

theorem traverse_yields (h : Traversal.Invariant next s) (hclosed : ∀ v ∈ l, next v ⊆ l)
    (hstack : ∀ p ∈ s.stack, p.1 ∈ l) (hvisited : s.visited ⊆ l) :
    ∃ s', Yields (traverse next s) s' ∧ s'.Rested next ∧ s'.visited ⊆ l ∧
      s.visited ⊆ s'.visited ∧ ∀ v, (v, false) ∈ s.stack → v ∈ s'.visited := by
  obtain ⟨left, s', hrun, -⟩ := Traversal.run_returns pushes_next (fun _ _ ↦ le_rfl) hclosed hstack
    (le_refl (Traversal.potential next l s))
  obtain ⟨hrest, hgrow, hall⟩ := Traversal.run_spec pushes_next h hrun
  refine ⟨s', ⟨Traversal.potential next l s - left, fun remaining _ ↦ ?_⟩, hrest,
    Traversal.run_inside pushes_next hclosed hstack hvisited hrun, hgrow, hall⟩
  rw [traverse, (Traversal.run_price hrun).2 remaining]
  split <;> rfl

/-- The traversal of a list of roots: all of them are entered. -/
theorem traverseAll_yields (hclosed : ∀ v ∈ l, next v ⊆ l) {roots : List BlockId}
    (hroots : roots ⊆ l) (hs : s.Rested next) (hvisited : s.visited ⊆ l) :
    ∃ s', Yields (roots.foldlM (fun s root ↦
        traverse next { s with stack := [(root, false)] }) s) s' ∧ s'.Rested next ∧
      s'.visited ⊆ l ∧ s.visited ⊆ s'.visited ∧ roots ⊆ s'.visited := by
  induction roots generalizing s with
  | nil => exact ⟨s, Yields.pure s, hs, hvisited, fun x hx ↦ hx, List.nil_subset _⟩
  | cons root roots ih =>
      have hstack : ∀ p ∈ [(root, false)], p.1 ∈ l := fun p hp ↦ by
        rw [List.mem_singleton.mp hp]
        exact hroots List.mem_cons_self
      obtain ⟨t, ht, hrest, hinside, hgrow, hall⟩ :=
        traverse_yields (hs.root root) hclosed hstack hvisited
      obtain ⟨s', hs', hrest', hinside', hgrow', hroots'⟩ :=
        ih (List.subset_of_cons_subset hroots) hrest hinside
      refine ⟨s', ?_, hrest', hinside', fun x hx ↦ hgrow' (hgrow hx), ?_⟩
      · rw [List.foldlM_cons]
        exact ht.bind hs'
      · exact List.cons_subset.mpr ⟨hgrow' (hall root (List.mem_singleton_self _)), hroots'⟩

/-! ## Components -/

/-- A component that is gathered: what is on the stack leads to it, and what leads to it is
assigned or on the stack. -/
structure ComponentState.Gathering (E : BlockId → BlockId → Prop) (l assigned : List BlockId)
    (root : BlockId) (s : ComponentState) : Prop where
  known : s.assigned = s.component ++ assigned
  nodup : s.component.Nodup
  apart : ∀ x ∈ s.component, x ∉ assigned
  rooted : root ∈ s.component ∨ root ∈ s.stack
  reach : ∀ x ∈ s.component, ReflTransGen (fun x y ↦ E x y ∧ y ∉ assigned) x root
  stack : ∀ x ∈ s.stack, x = root ∨ ∃ y ∈ s.component, E x y
  closed : ∀ y ∈ s.component, ∀ x, E x y → x ∈ s.assigned ∨ x ∈ s.stack
  inside : s.stack ⊆ l

variable {E : BlockId → BlockId → Prop} {sources : BlockId → List BlockId}
  {assigned : List BlockId} {root : BlockId} {t : ComponentState}

theorem ComponentState.Gathering.start (hroot : root ∈ l) :
    ComponentState.Gathering E l assigned root ⟨[root], assigned, []⟩ where
  known := rfl
  nodup := List.nodup_nil
  apart := by simp
  rooted := .inr (List.mem_singleton_self root)
  reach := by simp
  stack x hx := .inl (List.mem_singleton.mp hx)
  closed := by simp
  inside := List.cons_subset.mpr ⟨hroot, List.nil_subset _⟩

/-- A unit for each block on the stack, and for each that is not assigned what leads to it. -/
def componentMeasure (sources : BlockId → List BlockId) (l : List BlockId)
    (s : ComponentState) : Nat :=
  s.stack.length + (l.map fun v ↦ if v ∈ s.assigned then 0 else (sources v).length).sum

theorem ComponentState.Gathering.assign (hsources : ∀ x y, x ∈ sources y ↔ E x y)
    (hclosed : ∀ v ∈ l, sources v ⊆ l) (hroot : root ∉ assigned)
    (h : t.Gathering E l assigned root) (hstack : t.stack ≠ []) :
    (assignBlock sources t).Gathering E l assigned root ∧
      componentMeasure sources l (assignBlock sources t) < componentMeasure sources l t := by
  obtain ⟨stack, known, component⟩ := t
  obtain ⟨hassigned, hnodup, hapart, hmem, hreach, hleads, hknown, hinside⟩ := h
  dsimp only at hassigned hnodup hapart hmem hreach hleads hknown hinside hstack
  subst hassigned
  cases stack with
  | nil => exact absurd rfl hstack
  | cons block stack =>
      have hrest := List.subset_of_cons_subset hinside
      have hblock : block ∈ l := hinside List.mem_cons_self
      unfold assignBlock
      dsimp only
      by_cases hdone : block ∈ component ++ assigned
      · rw [if_pos hdone]
        refine ⟨⟨rfl, hnodup, hapart, ?_, hreach,
          fun x hx ↦ hleads x (List.mem_cons_of_mem _ hx), fun y hy x hxy ↦ ?_, hrest⟩, ?_⟩
        · rcases hmem with hmem | hmem
          · exact .inl hmem
          · rcases List.mem_cons.mp hmem with rfl | hmem
            · exact .inl ((List.mem_append.mp hdone).resolve_right hroot)
            · exact .inr hmem
        · rcases hknown y hy x hxy with hx | hx
          · exact .inl hx
          · rcases List.mem_cons.mp hx with rfl | hx
            · exact .inl hdone
            · exact .inr hx
        · exact Nat.add_lt_add_right (Nat.lt_succ_self _) _
      · rw [if_neg hdone]
        have hnew : block ∉ component ∧ block ∉ assigned := by
          rwa [List.mem_append, not_or] at hdone
        refine ⟨⟨rfl, List.nodup_cons.mpr ⟨hnew.1, hnodup⟩, ?_, ?_, ?_, ?_, ?_, ?_⟩, ?_⟩
        · intro x hx
          rcases List.mem_cons.mp hx with rfl | hx
          · exact hnew.2
          · exact hapart x hx
        · rcases hmem with hmem | hmem
          · exact .inl (List.mem_cons_of_mem _ hmem)
          · rcases List.mem_cons.mp hmem with rfl | hmem
            · exact .inl List.mem_cons_self
            · exact .inr (List.mem_append_right _ hmem)
        · intro x hx
          rcases List.mem_cons.mp hx with rfl | hx
          · rcases hleads x List.mem_cons_self with rfl | ⟨y, hy, hxy⟩
            · exact .refl
            · exact .head ⟨hxy, hapart y hy⟩ (hreach y hy)
          · exact hreach x hx
        · intro x hx
          rcases List.mem_append.mp hx with hx | hx
          · exact .inr ⟨block, List.mem_cons_self,
              (hsources x block).mp (List.mem_reverse.mp hx)⟩
          · exact (hleads x (List.mem_cons_of_mem _ hx)).imp_right fun ⟨y, hy, hxy⟩ ↦
              ⟨y, List.mem_cons_of_mem _ hy, hxy⟩
        · intro y hy x hxy
          rcases List.mem_cons.mp hy with rfl | hy
          · exact .inr (List.mem_append_left _ (List.mem_reverse.mpr ((hsources x y).mpr hxy)))
          · rcases hknown y hy x hxy with hx | hx
            · exact .inl (List.mem_cons_of_mem _ hx)
            · rcases List.mem_cons.mp hx with rfl | hx
              · exact .inl List.mem_cons_self
              · exact .inr (List.mem_append_right _ hx)
        · exact List.append_subset.mpr
            ⟨fun x hx ↦ hclosed block hblock (List.mem_reverse.mp hx), hrest⟩
        · have hless := sum_unvisited (fun v ↦ (sources v).length) hdone l
          rw [if_pos hblock] at hless
          simp only [componentMeasure, List.length_append, List.length_reverse, List.length_cons]
          omega

/-- What is gathered at a root: what leads to it outside of what was assigned before. -/
theorem gatherComponent_yields (hsources : ∀ x y, x ∈ sources y ↔ E x y)
    (hclosed : ∀ v ∈ l, sources v ⊆ l) (hroot : root ∉ assigned) (hmem : root ∈ l) :
    ∃ s, Yields (gatherComponent sources assigned root) s ∧
      s.assigned = s.component ++ assigned ∧ Gathers E assigned root s.component := by
  have hbody : ∀ s : ComponentState, s.Gathering E l assigned root → (!s.stack.isEmpty) = true →
      ∃ units s', Costs (do spend 1; return assignBlock sources s) units s' ∧ 1 ≤ units ∧
        s'.Gathering E l assigned root ∧ componentMeasure sources l s' <
          componentMeasure sources l s := by
    intro s hs hcond
    obtain ⟨hnext, hless⟩ := hs.assign hsources hclosed hroot (by simpa using hcond)
    exact ⟨1 + 0, _, (Costs.spend 1).bind (Costs.pure _), le_rfl, hnext, hless⟩
  obtain ⟨s, hs, hgathering, hdone⟩ := payWhile_yields (componentMeasure sources l) hbody
    (ComponentState.Gathering.start hmem)
  have hstack : s.stack = [] := by simpa using hdone
  refine ⟨s, hs, hgathering.known, gathers_of_closed hgathering.nodup ?_ hgathering.apart
    hgathering.reach fun y hy x hxy ↦ ?_⟩
  · have hroot := hgathering.rooted
    rw [hstack] at hroot
    exact hroot.resolve_right List.not_mem_nil
  · have hx := hgathering.closed y hy x hxy
    rw [hstack, hgathering.known] at hx
    exact (List.mem_append.mp (hx.resolve_right List.not_mem_nil)).symm

/-- The sweep finds what the plain sweep finds. -/
theorem sweepComponents_yields (gathered : List BlockId → BlockId → ComponentState)
    (hgathered : ∀ assigned root, root ∉ assigned → root ∈ l →
      Yields (gatherComponent sources assigned root) (gathered assigned root) ∧
        (gathered assigned root).assigned = (gathered assigned root).component ++ assigned)
    {finish : List BlockId} (hfinish : finish ⊆ l) (assigned : List BlockId) :
    ∃ components, Yields (sweepComponents sources assigned finish) components ∧
      sweep (fun assigned root ↦ some (gathered assigned root).component) assigned finish =
        some components := by
  induction finish generalizing assigned with
  | nil => exact ⟨[], Yields.pure [], rfl⟩
  | cons root finish ih =>
      have hrest := List.subset_of_cons_subset hfinish
      unfold sweepComponents sweep
      by_cases hroot : root ∈ assigned
      · rw [if_pos hroot, if_pos hroot]
        exact ih hrest assigned
      · rw [if_neg hroot, if_neg hroot]
        obtain ⟨hyields, hassigned⟩ := hgathered assigned root hroot (hfinish List.mem_cons_self)
        obtain ⟨components, hcomponents, hsweep⟩ := ih hrest (gathered assigned root).assigned
        refine ⟨_, hyields.bind (hcomponents.bind (Yields.pure _)), ?_⟩
        rw [Option.bind_some, ← hassigned, hsweep]
        rfl

end Components

/-! ## Irreducible blocks -/

namespace KirFunction

variable {f : KirFunction} {dominators : Dominators} {h x y : BlockId}

/-- An edge that the table does not show to lead back. -/
def ForwardEdge (f : KirFunction) (dominators : Dominators) (x y : BlockId) : Prop :=
  y ∈ f.forwardTargets dominators x

theorem forwardEdge_iff : f.ForwardEdge dominators x y ↔
    ∃ b ∈ f.blocks, b.id = x ∧ y ∈ b.terminator.successors ∧ dominators y x = false := by
  simp only [ForwardEdge, forwardTargets, mem_sortedSet, List.mem_flatMap, List.mem_filter,
    decide_eq_true_eq, Bool.not_eq_true']
  constructor
  · rintro ⟨b, ⟨hb, rfl⟩, hy, hdom⟩
    exact ⟨b, hb, rfl, hy, hdom⟩
  · rintro ⟨b, hb, rfl, hy, hdom⟩
    exact ⟨b, ⟨hb, rfl⟩, hy, hdom⟩

theorem mem_forwardSources : x ∈ f.forwardSources dominators y ↔ f.ForwardEdge dominators x y := by
  rw [forwardEdge_iff]
  simp only [forwardSources, mem_sortedSet, List.mem_map, List.mem_filter, decide_eq_true_eq]
  constructor
  · rintro ⟨b, ⟨hb, hy, hdom⟩, rfl⟩
    exact ⟨b, hb, rfl, hy, hdom⟩
  · rintro ⟨b, hb, rfl, hy, hdom⟩
    exact ⟨b, ⟨hb, hy, hdom⟩, rfl⟩

theorem ForwardEdge.source (hxy : f.ForwardEdge dominators x y) : x ∈ f.blockIds := by
  obtain ⟨b, hb, rfl, -⟩ := forwardEdge_iff.mp hxy
  exact List.mem_map_of_mem hb

/-- The blocks and where their edges lead. -/
def flowBlocks (f : KirFunction) : List BlockId :=
  f.blockIds ++ f.blocks.flatMap (·.terminator.successors)

theorem ForwardEdge.target (hxy : f.ForwardEdge dominators x y) : y ∈ f.flowBlocks := by
  obtain ⟨b, hb, -, hy, -⟩ := forwardEdge_iff.mp hxy
  exact List.mem_append_right _ (List.mem_flatMap.mpr ⟨b, hb, hy⟩)

theorem spendBlocks_yields (f : KirFunction) : Yields f.spendBlocks () := by
  have hstep : ∀ (s : Unit) (_ : KirBlock), Yields (spend 1) ((fun _ _ ↦ ()) s ()) :=
    fun _ _ ↦ (Costs.spend 1).yields
  exact Yields.foldlM hstep f.blocks ()

theorem forwardFinish_yields (f : KirFunction) (dominators : Dominators) :
    ∃ finish, Yields (f.forwardFinish dominators) finish ∧
      LeavingOrder (f.ForwardEdge dominators) finish ∧ f.blockIds ⊆ finish ∧
      finish ⊆ f.flowBlocks := by
  have hclosed : ∀ v ∈ f.flowBlocks, f.forwardTargets dominators v ⊆ f.flowBlocks :=
    fun v _ y hy ↦ ForwardEdge.target (x := v) hy
  have hroots : sortedSet f.blockIds ⊆ f.flowBlocks := fun x hx ↦
    List.mem_append_left _ (mem_sortedSet.mp hx)
  obtain ⟨s, hs, hrest, hinside, -, hall⟩ := traverseAll_yields hclosed hroots
    (Traversal.Rested.start _) (List.nil_subset _)
  exact ⟨s.finish, hs.bind (Yields.pure _), hrest.invariant.leavingOrder hrest.stack,
    fun x hx ↦ hrest.mem_visited.mp (hall (mem_sortedSet.mpr hx)),
    fun x hx ↦ hinside (hrest.mem_visited.mpr hx)⟩

/-- The blocks found are those on cycles of edges that do not lead back. -/
theorem irreducibleBlocks_yields (f : KirFunction) (dominators : Dominators)
    (hself : ∀ x, ¬ f.ForwardEdge dominators x x) :
    ∃ irreducible, Yields (f.irreducibleBlocks dominators) irreducible ∧
      ∀ x, x ∈ irreducible ↔ TransGen (f.ForwardEdge dominators) x x := by
  obtain ⟨finish, hfinish, horder, hblocks, hinside⟩ := forwardFinish_yields f dominators
  have hclosed : ∀ v ∈ f.flowBlocks, f.forwardSources dominators v ⊆ f.flowBlocks :=
    fun v _ y hy ↦ List.mem_append_left _ (mem_forwardSources.mp hy).source
  have hgather : ∀ assigned root, ∃ s, root ∉ assigned → root ∈ f.flowBlocks →
      Yields (gatherComponent (f.forwardSources dominators) assigned root) s ∧
        s.assigned = s.component ++ assigned ∧
        Gathers (f.ForwardEdge dominators) assigned root s.component := by
    intro assigned root
    by_cases hmem : root ∉ assigned ∧ root ∈ f.flowBlocks
    · obtain ⟨s, hs⟩ := gatherComponent_yields (fun _ _ ↦ mem_forwardSources) hclosed hmem.1 hmem.2
      exact ⟨s, fun _ _ ↦ hs⟩
    · exact ⟨⟨[], [], []⟩, fun hroot hflow ↦ absurd ⟨hroot, hflow⟩ hmem⟩
  choose gathered hgathered using hgather
  obtain ⟨components, hcomponents, hsweep⟩ := sweepComponents_yields gathered
    (fun assigned root hroot hflow ↦
      ⟨(hgathered assigned root hroot hflow).1, (hgathered assigned root hroot hflow).2.1⟩)
    hinside []
  have hsource : ∀ x y, f.ForwardEdge dominators x y → x ∈ finish := fun x y hxy ↦
    hblocks hxy.source
  obtain ⟨hspec, hall⟩ := sweep_spec (fun assigned r hr c hnew hc ↦ by
    cases hc
    exact (hgathered assigned r hnew (hinside hr)).2.2) horder hsource hsweep
  refine ⟨_, (spendBlocks_yields f).bind (hfinish.bind (hcomponents.bind (Yields.pure _))),
    fun x ↦ ?_⟩
  rw [mem_sortedSet, ← mem_cyclic_components (fun _ ↦ false) hsource
    (fun x ↦ iff_of_false Bool.false_ne_true (hself x)) hspec hall x]
  simp only [Bool.false_eq_true, or_false]

/-! ## The table -/

theorem computed_iff (hx : x ∈ f.blockIds) (hy : y ∈ f.blockIds) :
    f.computeKirDominators x y = true ↔ f.flowGraph.Dominates x y := by
  cases hblocks : f.blocks with
  | nil =>
      rw [blockIds, hblocks] at hx
      cases hx
  | cons entry rest =>
      have hentry : f.entryId? = some entry.id := by rw [entryId?, hblocks]; rfl
      exact computeKirDominators_iff hentry hx hy

theorem mem_blockIds_of_dominator (hxy : f.computeKirDominators x y = true) : x ∈ f.blockIds := by
  cases hentry : f.entryId? with
  | none =>
      rw [computeKirDominators, hentry] at hxy
      cases hxy
  | some entry => exact mem_blockIds_of_computed hentry hxy

theorem edge_source (hxy : f.flowGraph.edge x y) : x ∈ f.blockIds :=
  mem_blockIds_of_flowPredecessors hxy.1

theorem edge_iff : f.flowGraph.edge x y ↔
    (∃ b ∈ f.blocks, b.id = x ∧ y ∈ b.terminator.successors) ∧ y ∈ f.blockIds :=
  and_congr_left fun _ ↦ mem_flowPredecessors

theorem forwardEdge_computed (hy : y ∈ f.blockIds) :
    f.ForwardEdge f.computeKirDominators x y ↔ f.flowGraph.Forward x y := by
  rw [forwardEdge_iff, Lib.FlowGraph.Forward, edge_iff]
  constructor
  · rintro ⟨b, hb, rfl, hsuccessor, hdom⟩
    refine ⟨⟨⟨b, hb, rfl, hsuccessor⟩, hy⟩, fun hdominates ↦ ?_⟩
    rw [(computed_iff hy (List.mem_map_of_mem hb)).mpr hdominates] at hdom
    cases hdom
  · rintro ⟨⟨⟨b, hb, rfl, hsuccessor⟩, -⟩, hdom⟩
    refine ⟨b, hb, rfl, hsuccessor, ?_⟩
    rw [← Bool.not_eq_true, computed_iff hy (List.mem_map_of_mem hb)]
    exact hdom

theorem cycle_computed :
    TransGen (f.ForwardEdge f.computeKirDominators) x x ↔ TransGen f.flowGraph.Forward x x := by
  constructor
  · intro hcycle
    have hpath : ∀ y, TransGen (f.ForwardEdge f.computeKirDominators) x y → y ∈ f.blockIds →
        TransGen f.flowGraph.Forward x y := by
      intro y hxy
      induction hxy with
      | single hstep => exact fun hy ↦ .single ((forwardEdge_computed hy).mp hstep)
      | tail _ hstep ih =>
          exact fun hy ↦ .tail (ih hstep.source) ((forwardEdge_computed hy).mp hstep)
    obtain ⟨y, hxy, -⟩ := TransGen.head'_iff.mp hcycle
    exact hpath x hcycle hxy.source
  · have hpath : ∀ y, TransGen f.flowGraph.Forward x y →
        TransGen (f.ForwardEdge f.computeKirDominators) x y := by
      intro y hxy
      induction hxy with
      | single hstep => exact .single ((forwardEdge_computed hstep.1.2).mpr hstep)
      | tail _ hstep ih => exact ih.tail ((forwardEdge_computed hstep.1.2).mpr hstep)
    exact hpath x

end KirFunction

end CalcKernel
