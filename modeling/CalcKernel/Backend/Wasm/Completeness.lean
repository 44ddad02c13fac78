import CalcKernel.Backend.Wasm.Regions

/-!
# Reducible functions have a plan

In a reducible flow graph the edges between the items of a region have no cycle, every
item but the first has one, and every edge leads to a later item, to an item that is in
scope already or to the header of a loop around it.
-/

namespace CalcKernel

open Relation

namespace KirFunction

variable {f : KirFunction} {reachable : List BlockId} {loops : List NaturalLoop}
  {owner : Option BlockId} {entry r s t x y h c : BlockId} {items root : StructureItems}

/-- Every reached block is in at most this many natural loops. -/
def LoopsWithin (f : KirFunction) (G : Lib.FlowGraph BlockId) (n : Nat) : Prop :=
  ∀ x, f.Reached x → ∀ headers : List BlockId, headers.Nodup →
    (∀ h ∈ headers, (∃ latch, f.Reached latch ∧ G.edge latch h ∧ G.Dominates h latch) ∧
      G.InLoop h x) → headers.length ≤ n

/-! ## Edges between items -/

theorem exists_repOf (hx : x ∈ f.scopeSet owner) : ∃ r, f.RepOf owner x r := by
  by_cases hinside : ∃ c, f.Child owner c ∧ x ∈ f.loopSet c
  · obtain ⟨c, hc, hxc⟩ := hinside
    exact ⟨c, hc.repOf hxc⟩
  · push Not at hinside
    exact ⟨x, hx, Or.inr ⟨Eq.refl _, hinside⟩⟩

/-- An edge to another item leads to the block that stands for it. -/
theorem RepOf.target_eq (hs : f.RepOf owner x s) (hedge : f.flowGraph.edge x y)
    (ht : f.RepOf owner y t) (hst : s ≠ t) : y = t := by
  obtain ⟨_, ⟨hc, hyt⟩ | ⟨rfl, _⟩⟩ := ht
  · by_contra hne
    have hxt : x ∈ f.loopSet t := ⟨scopeSet_reached hs.1, hyt.2.of_edge hne hedge⟩
    exact hst (hs.unique (hc.repOf hxt))
  · exact Eq.refl _

/-- A header in a region that it does not own is in a loop of the region. -/
theorem LoopForest.exists_child_of_header (hF : f.LoopForest loops) (howner : f.IsOwner owner)
    (hh : f.IsHeader h) (hmem : h ∈ f.scopeSet owner) (hne : owner ≠ some h) :
    ∃ c, f.Child owner c ∧ f.loopSet h ⊆ f.loopSet c := by
  refine hF.exists_child hh fun o ho ↦ ?_
  subst ho
  have hoHeader := howner o (Eq.refl _)
  refine ⟨hoHeader, ?_⟩
  have hho : h ≠ o := fun heq ↦ hne (congrArg some heq.symm)
  rcases (laminar_loops f).ssubset_or_ssubset hh hoHeader hho hh.mem_loopSet hmem with hsub | hsub
  · exact hsub
  · -- each header would dominate the other
    have hoh := Lib.FlowGraph.InLoop.dominates hmem.2
    have hho' := Lib.FlowGraph.InLoop.dominates (hsub.1 hoHeader.mem_loopSet).2
    exact absurd (Lib.FlowGraph.Dominates.antisymm hoHeader.reached.reachable hho' hoh) hho

theorem isHeader_of_back (hx : f.Reached x) (hedge : f.flowGraph.edge x y)
    (hdom : f.flowGraph.Dominates y x) : f.IsHeader y ∧ x ∈ f.loopSet y := by
  refine ⟨⟨x, hx, hedge, hdom⟩, hx, ?_⟩
  by_cases hxy : x = y
  · exact Or.inl hxy
  · exact Or.inr ⟨hxy, x, hedge, hdom, .refl⟩

/-- From an item on, without going back, to the blocks it stands for. -/
theorem RepOf.forward_path (h : f.RepOf owner x r) : ReflTransGen f.flowGraph.Forward r x := by
  obtain ⟨entry, hentry, hpath⟩ := scopeSet_reached h.1
  obtain ⟨_, ⟨_, hxr⟩ | ⟨rfl, _⟩⟩ := h
  · exact Lib.FlowGraph.Dominates.forward_path (Or.inl hentry) hpath hxr.2.dominates
  · exact .refl

theorem ProjectedEdge.forward (hF : f.LoopForest loops) (howner : f.IsOwner owner)
    (hedge : f.ProjectedEdge owner s t) : TransGen f.flowGraph.Forward s t := by
  obtain ⟨hst, x, y, hs, hxy, ht, hne⟩ := hedge
  obtain rfl := hs.target_eq hxy ht hst
  refine TransGen.tail' hs.forward_path ⟨hxy, fun hdom ↦ hst ?_⟩
  obtain ⟨hyHeader, hxLoop⟩ := isHeader_of_back (scopeSet_reached hs.1) hxy hdom
  obtain ⟨c, hc, hsub⟩ := hF.exists_child_of_header howner hyHeader ht.1 hne
  rw [hs.unique (hc.repOf (hsub hxLoop)), ht.unique (hc.repOf (hsub hyHeader.mem_loopSet))]

/-- Every item but the first has an edge from another item. -/
theorem exists_projectedEdge (howner : f.IsOwner owner) (hentry : f.StartsAt owner entry)
    (hr : f.RepOf owner r r) (hne : r ≠ entry) : ∃ s, f.ProjectedEdge owner s r := by
  have hreached := scopeSet_reached hr.1
  have hpath : ReflTransGen f.flowGraph.Forward entry r := by
    obtain ⟨start, hstart, hpath⟩ := hreached
    rcases hentry with rfl | ⟨rfl, hentry⟩
    · exact Lib.FlowGraph.Dominates.forward_path (Or.inl hstart) hpath hr.1.2.dominates
    · cases hstart.symm.trans hentry
      exact Lib.FlowGraph.forward_path (Or.inl hstart) hpath
  rcases hpath.cases_tail with heq | ⟨p, hprefix, hedge, hnot⟩
  · exact absurd heq hne
  · have hp : p ∈ f.scopeSet owner := by
      have hfrom : ∀ {z}, f.Reached z → ReflTransGen f.flowGraph.Forward z p → f.Reached p := by
        rintro z ⟨start, hstart, hz⟩ hzp
        exact ⟨start, hstart, hz.trans (Lib.weakenPath hzp fun _ _ h ↦ h.1)⟩
      rcases hentry with rfl | ⟨rfl, hentry⟩
      · exact ⟨hfrom (howner entry (Eq.refl _)).reached hprefix, hr.1.2.of_edge hne hedge⟩
      · exact hfrom (reached_entry hentry) hprefix
    obtain ⟨s, hs⟩ := exists_repOf hp
    refine ⟨s, fun hsr ↦ hnot ?_, p, r, hs, hedge, hr, fun howner ↦ hne ?_⟩
    · subst hsr
      obtain ⟨_, ⟨_, hps⟩ | ⟨rfl, _⟩⟩ := hs
      · exact hps.2.dominates
      · exact Lib.FlowGraph.Dominates.refl _ _
    · rcases hentry with hentry | ⟨hentry, _⟩
      · exact Option.some.inj (howner.symm.trans hentry)
      · cases howner.symm.trans hentry

/-! ## The regions are built -/

/-- The flow graph entered at the entry and at the blocks without predecessors. -/
def ReducibleFlow (f : KirFunction) : Prop :=
  ∀ entry, f.entryId? = some entry → f.flowGraph.Reducible entry

theorem regionOrder_returns (hR : f.ReachableSet reachable) (hF : f.LoopForest loops)
    (hred : f.ReducibleFlow) (howner : f.IsOwner owner) (hentry : f.StartsAt owner entry)
    (hself : f.RepOf owner entry entry) {scope : List BlockId}
    (hscope : ∀ x, x ∈ scope ↔ x ∈ f.scopeSet owner) :
    ∃ sorted, f.regionOrder owner (loops.filter (·.parent = owner)) scope = some sorted ∧
      sorted.head? = some entry ∧ ∀ r ∈ sorted, f.RepOf owner r r := by
  obtain ⟨set, edges, sorted, hset, hsetIff, hedges, hsorted, horder⟩ :=
    regionOrder_spec hR hF hscope
  have hall : ∀ t ∈ set, t ∈ sorted := by
    refine hsorted.complete fun t ht hcycle ↦ ?_
    obtain ⟨start, hstart, hpath⟩ := scopeSet_reached ((hsetIff t).mp ht).1
    have hforward : ∀ a b, (a, b) ∈ edges → TransGen f.flowGraph.Forward a b := fun a b hab ↦
      ((hedges a b).mp hab).forward hF howner
    exact hred start hstart t hpath (TransGen.closed hforward t t hcycle)
  refine ⟨sorted, ?_, ?_, fun r hr ↦ (hsetIff r).mp (hsorted.subset r hr)⟩
  · rw [horder, if_pos ((hsorted.length_eq hset).mpr hall)]
  · refine hsorted.head_eq hall ((hsetIff entry).mpr hself) (fun a ha ↦ ((hedges a a).mp ha).1 (Eq.refl _))
      fun t ht hne ↦ ?_
    obtain ⟨p, hp⟩ := exists_projectedEdge howner hentry ((hsetIff t).mp ht) hne
    exact ⟨p, (hedges p t).mpr hp⟩

theorem layItems_returns {headers sorted : List BlockId} {body : BlockId → Option StructureItems}
    (hbody : ∀ c ∈ headers, ∃ inner, body c = some inner) :
    ∃ items, layItems headers body sorted = some items := by
  induction sorted with
  | nil => exact ⟨.nil, Eq.refl _⟩
  | cons item sorted ih =>
      obtain ⟨rest, hrest⟩ := ih
      rw [layItems]
      split
      · rename_i hmem
        obtain ⟨inner, hinner⟩ := hbody item hmem
        exact ⟨.loop item inner rest, by simp [hinner, hrest]⟩
      · exact ⟨.block item rest, by simp [hrest]⟩

theorem StartsAt.repOf (howner : f.IsOwner owner) (hentry : f.StartsAt owner entry) :
    f.RepOf owner entry entry := by
  have hmem : entry ∈ f.scopeSet owner := by
    rcases hentry with rfl | ⟨rfl, hentry⟩
    · exact (howner entry (Eq.refl _)).mem_loopSet
    · exact reached_entry hentry
  obtain ⟨r, hr⟩ := exists_repOf hmem
  obtain rfl := repOf_first hentry hr
  exact hr

/-- The headers of the regions around. -/
structure Enclosing (f : KirFunction) (owner : Option BlockId) (headers : List BlockId) : Prop where
  nodup : headers.Nodup
  isHeader : ∀ k ∈ headers, f.IsHeader k
  around : ∀ k ∈ headers, ∃ o, owner = some o ∧ f.loopSet o ⊆ f.loopSet k

theorem Enclosing.cons {headers : List BlockId} (h : f.Enclosing owner headers)
    (hc : f.Child owner c) : f.Enclosing (some c) (c :: headers) := by
  refine ⟨List.nodup_cons.mpr ⟨fun hmem ↦ ?_, h.nodup⟩, fun k hk ↦ ?_, fun k hk ↦ ?_⟩
  · obtain ⟨o, rfl, hsub⟩ := h.around c hmem
    exact hc.2.2.1.2 hsub
  · rcases List.mem_cons.mp hk with rfl | hk
    · exact hc.isHeader
    · exact h.isHeader k hk
  · refine ⟨c, Eq.refl _, ?_⟩
    rcases List.mem_cons.mp hk with rfl | hk
    · exact Set.Subset.refl _
    · obtain ⟨o, rfl, hsub⟩ := h.around k hk
      exact Set.Subset.trans hc.subset_scope hsub

theorem Enclosing.length_le {headers : List BlockId} (h : f.Enclosing owner headers) {n : Nat}
    (hdepth : f.LoopsWithin f.flowGraph n) (hx : x ∈ f.scopeSet owner) : headers.length ≤ n :=
  hdepth x (scopeSet_reached hx) headers h.nodup fun k hk ↦ by
    obtain ⟨o, rfl, hsub⟩ := h.around k hk
    exact ⟨h.isHeader k hk, (hsub hx).2⟩

theorem buildRegion_returns (hR : f.ReachableSet reachable) (hF : f.LoopForest loops)
    (hred : f.ReducibleFlow) (hdepth : f.LoopsWithin f.flowGraph maxLoopDepth)
    {fuel depth : Nat} (hfuel : fuel + depth = maxLoopDepth + 1) {headers : List BlockId}
    (henclosing : f.Enclosing owner headers) (hlength : headers.length = depth)
    (howner : f.IsOwner owner) (hentry : f.StartsAt owner entry) :
    ∃ items, f.buildRegion reachable loops fuel owner depth entry = some items := by
  induction fuel generalizing owner depth entry headers with
  | zero =>
      have hle := henclosing.length_le hdepth (hentry.repOf howner).1
      omega
  | succ fuel ih =>
      rw [buildRegion, if_neg]
      · have hself := hentry.repOf howner
        obtain ⟨scope, hscopeEq, hscope⟩ := regionScope_spec hR hF howner
        obtain ⟨sorted, horder, hhead, _⟩ :=
          regionOrder_returns hR hF hred howner hentry hself hscope
        have hrep := (representative_iff hF hscope).mpr hself
        simp only [hscopeEq, horder, hrep, Option.bind_eq_bind, Option.bind_some, if_pos hhead]
        refine layItems_returns fun c hc ↦ ?_
        have hchild := (mem_childHeaders hF).mp hc
        exact ih (by omega) (henclosing.cons hchild) (by rw [List.length_cons, hlength])
          (fun k hk ↦ by
            cases hk
            exact hchild.isHeader)
          (Or.inl (Eq.refl _))
      · -- a loop of the region would be one too many
        rintro ⟨hchildren, hdeep⟩
        obtain ⟨l, hl⟩ := List.exists_mem_of_ne_nil _ hchildren
        have hchild : f.Child owner l.header := (child_iff hF).mpr ⟨l, hl, Eq.refl _⟩
        have hle := (henclosing.cons hchild).length_le hdepth (x := l.header)
          hchild.isHeader.mem_loopSet
        rw [List.length_cons] at hle
        omega

/-! ## The scopes are valid -/

/-- The number of edges of a block. -/
def armCount (f : KirFunction) (b : BlockId) : Nat :=
  ((f.block? b).map (·.terminator.outgoingEdges.length)).getD 0

theorem expectedEdges_eq (f : KirFunction) (blocks : List BlockId) :
    f.expectedEdges blocks = (blocks.map f.armCount).sum := by
  unfold expectedEdges
  induction blocks with
  | nil => simp
  | cons b blocks ih =>
      rw [List.map_cons, List.sum_cons, ← ih, armCount]
      cases hb : f.block? b <;> simp [hb]

theorem recordTargets_returns {labels : StructureLabels} {activeLoops forward : List BlockId}
    {id : BlockId} {arms : List (Nat × KirEdge)}
    {targets : List ((BlockId × Nat) × BranchTarget)}
    (hscoped : ∀ arm ∈ arms, ∃ target,
      scopedTarget labels activeLoops forward arm.2.target = some target)
    (harms : (arms.map (·.1)).Nodup)
    (hfresh : ∀ arm ∈ arms, (id, arm.1) ∉ targets.map (·.1)) :
    ∃ targets', arms.foldlM (recordTarget labels activeLoops forward id) targets = some targets' ∧
      targets'.length = targets.length + arms.length ∧
      ∀ key ∈ targets'.map (·.1), key ∈ targets.map (·.1) ∨ key.1 = id := by
  induction arms generalizing targets with
  | nil => exact ⟨targets, Eq.refl _, Eq.refl _, fun key hkey ↦ Or.inl hkey⟩
  | cons arm arms ih =>
      rw [List.map_cons, List.nodup_cons] at harms
      obtain ⟨target, htarget⟩ := hscoped arm List.mem_cons_self
      have hnone : ¬ (targets.lookup (id, arm.1)).isSome = true := by
        intro hsome
        obtain ⟨value, hvalue⟩ := Option.isSome_iff_exists.mp hsome
        exact hfresh arm List.mem_cons_self (List.mem_map_of_mem (Lib.mem_of_lookup hvalue))
      have hrecord : recordTarget labels activeLoops forward id targets arm =
          some (((id, arm.1), target) :: targets) := by
        rw [recordTarget, htarget, Option.bind_eq_bind, Option.bind_some, if_neg hnone]
      have hfreshLater : ∀ arm' ∈ arms, (id, arm'.1) ∉ (((id, arm.1), target) :: targets).map (·.1) := by
        intro arm' harm' hmem
        rcases List.mem_cons.mp hmem with heq | hmem
        · have heq : arm'.1 = arm.1 := congrArg (·.2) heq
          exact harms.1 (heq ▸ List.mem_map_of_mem harm')
        · exact hfresh arm' (List.mem_cons_of_mem _ harm') hmem
      obtain ⟨targets', hfold, hlength, hkeys⟩ := ih
        (fun arm' harm' ↦ hscoped arm' (List.mem_cons_of_mem _ harm')) harms.2 hfreshLater
      refine ⟨targets', ?_, ?_, fun key hkey ↦ ?_⟩
      · rw [List.foldlM_cons, hrecord]
        exact hfold
      · rw [hlength, List.length_cons, List.length_cons]
        omega
      · rcases hkeys key hkey with hmem | heq
        · rcases List.mem_cons.mp hmem with rfl | hmem
          · exact Or.inr (Eq.refl _)
          · exact Or.inl hmem
        · exact Or.inr heq

theorem nodup_arms (t : KirTerminator) : (t.outgoingEdges.map (·.1)).Nodup := by
  cases t <;> simp [KirTerminator.outgoingEdges]

/-- What is in scope for the items of a region: whatever an edge out of the region leads to. -/
structure InScope (f : KirFunction) (root : StructureItems) (owner : Option BlockId)
    (activeLoops forward : List BlockId) : Prop where
  escapes : ∀ x ∈ f.scopeSet owner, ∀ y, f.flowGraph.edge x y → y ∉ f.scopeSet owner →
    y ∈ activeLoops ∨ y ∈ forward
  owner : ∀ o, owner = some o → o ∈ activeLoops
  headers : ∀ y ∈ activeLoops, y ∈ root.headers
  heads : ∀ y ∈ forward, y ∈ root.deepHeads

theorem scopedTarget_isSome {labels : StructureLabels} {activeLoops forward : List BlockId}
    (hlabels : labels.Complete root) (hactive : ∀ y ∈ activeLoops, y ∈ root.headers)
    (hforward : ∀ y ∈ forward, y ∈ root.deepHeads) (hy : y ∈ activeLoops ∨ y ∈ forward) :
    ∃ target, scopedTarget labels activeLoops forward y = some target := by
  unfold scopedTarget
  by_cases hmem : y ∈ activeLoops
  · rw [if_pos hmem, if_pos (hlabels.headers y (hactive y hmem))]
    exact ⟨_, Eq.refl _⟩
  · have hy := hy.resolve_left hmem
    rw [if_neg hmem, if_pos hy, if_pos (hlabels.heads y (hforward y hy))]
    exact ⟨_, Eq.refl _⟩

/-- An edge from an item leads out of the region, to its owner or to a later item. -/
theorem edge_cases (hx : f.RepOf owner x s) (hedge : f.flowGraph.edge x y)
    (hback : ¬ f.RepOf owner y s) {later : List BlockId}
    (hlater : ∀ t, f.ProjectedEdge owner s t → t ∈ later) :
    y ∉ f.scopeSet owner ∨ owner = some y ∨ y ∈ later := by
  by_cases hy : y ∈ f.scopeSet owner
  · by_cases howner : owner = some y
    · exact Or.inr (Or.inl howner)
    · obtain ⟨t, ht⟩ := exists_repOf hy
      have hst : s ≠ t := by
        rintro rfl
        exact hback ht
      obtain rfl := hx.target_eq hedge ht hst
      exact Or.inr (Or.inr (hlater y ⟨hst, x, y, hx, hedge, ht, howner⟩))
  · exact Or.inl hy

theorem InScope.enterLoop {activeLoops forward : List BlockId}
    (hscope : f.InScope root owner activeLoops forward) (hc : f.Child owner h)
    {later : List BlockId} (hlater : ∀ t, f.ProjectedEdge owner h t → t ∈ later)
    (hheader : h ∈ root.headers) (hheads : ∀ y ∈ later, y ∈ root.deepHeads) :
    f.InScope root (some h) (h :: activeLoops) (later ++ forward) := by
  refine ⟨fun x hx y hedge hy ↦ ?_, fun o ho ↦ ?_, fun y hy ↦ ?_, fun y hy ↦ ?_⟩
  · have hrep : f.RepOf owner x h := hc.repOf hx
    have hback : ¬ f.RepOf owner y h := by
      rintro ⟨_, ⟨_, hmem⟩ | ⟨rfl, _⟩⟩
      · exact hy hmem
      · exact hy hc.isHeader.mem_loopSet
    rcases edge_cases hrep hedge hback hlater with hout | heq | hmem
    · rcases hscope.escapes x (hc.subset_scope hx) y hedge hout with hmem | hmem
      · exact Or.inl (List.mem_cons_of_mem _ hmem)
      · exact Or.inr (List.mem_append_right _ hmem)
    · exact Or.inl (List.mem_cons_of_mem _ (hscope.owner y heq))
    · exact Or.inr (List.mem_append_left _ hmem)
  · cases ho
    exact List.mem_cons_self
  · rcases List.mem_cons.mp hy with rfl | hy
    · exact hheader
    · exact hscope.headers y hy
  · rcases List.mem_append.mp hy with hy | hy
    · exact hheads y hy
    · exact hscope.heads y hy

/-- A block that is an item of its own has no edge to itself, but for the owner. -/
theorem LoopForest.no_self_edge (hF : f.LoopForest loops) (howner : f.IsOwner owner)
    (hx : f.RepOf owner x x) (hno : ¬ f.Child owner x) (hne : owner ≠ some x) :
    ¬ f.flowGraph.edge x x := by
  intro hedge
  have hreached := scopeSet_reached hx.1
  obtain ⟨hheader, _⟩ := isHeader_of_back hreached hedge (Lib.FlowGraph.Dominates.refl _ x)
  obtain ⟨c, hc, hsub⟩ := hF.exists_child_of_header howner hheader hx.1 hne
  obtain rfl := (hc.repOf (hsub hheader.mem_loopSet)).unique hx
  exact hno hc

theorem validateScopes_returns (hR : f.ReachableSet reachable) (hF : f.LoopForest loops)
    {labels : StructureLabels} (hlabels : labels.Complete root) (howner : f.IsOwner owner)
    (hdeep : items.deepHeads ⊆ root.deepHeads) (hheaders : items.headers ⊆ root.headers)
    (hlaid : f.LaidOut owner items) (hreps : ∀ r ∈ items.heads, f.RepOf owner r r)
    (hpairs : items.heads.Pairwise fun a b ↦ ¬ f.ProjectedEdge owner b a)
    (hclosed : ∀ r ∈ items.heads, ∀ t, f.ProjectedEdge owner r t → t ∈ items.heads)
    {activeLoops forward : List BlockId} (hscope : f.InScope root owner activeLoops forward)
    (hnodup : items.blocks.Nodup) {targets : List ((BlockId × Nat) × BranchTarget)}
    (hfresh : ∀ key ∈ targets.map (·.1), key.1 ∉ items.blocks) :
    ∃ targets', f.validateScopes labels activeLoops forward items targets = some targets' ∧
      targets'.length = targets.length + (items.blocks.map f.armCount).sum ∧
      ∀ key ∈ targets'.map (·.1), key ∈ targets.map (·.1) ∨ key.1 ∈ items.blocks := by
  induction items generalizing owner activeLoops forward targets with
  | nil => exact ⟨targets, Eq.refl _, by simp [StructureItems.blocks], fun key hkey ↦ Or.inl hkey⟩
  | block id rest ih =>
      rw [StructureItems.heads, List.pairwise_cons] at hpairs
      rw [StructureItems.blocks, List.nodup_cons] at hnodup
      have hrep := hreps id List.mem_cons_self
      obtain ⟨b, hb, htargets⟩ := hR.block id ((hR.mem id).mpr (scopeSet_reached hrep.1))
      have hlater : ∀ t, f.ProjectedEdge owner id t → t ∈ rest.heads := by
        intro t hedge
        exact (List.mem_cons.mp (hclosed id List.mem_cons_self t hedge)).resolve_left
          (Ne.symm hedge.1)
      have harms : ∀ arm ∈ b.terminator.outgoingEdges, ∃ target,
          scopedTarget labels activeLoops (rest.heads ++ forward) arm.2.target = some target := by
        intro arm harm
        have hmem : arm.2.target ∈ b.terminator.successors :=
          outgoingEdges_targets b.terminator ▸ List.mem_map_of_mem harm
        have hedge := edge_of_block? hb hmem (htargets _ hmem).1
        refine scopedTarget_isSome hlabels hscope.headers (fun y hy ↦ ?_) ?_
        · rcases List.mem_append.mp hy with hy | hy
          · exact hdeep (List.mem_cons_of_mem _ (StructureItems.heads_subset_deepHeads rest hy))
          · exact hscope.heads y hy
        · by_cases howned : owner = some arm.2.target
          · exact Or.inl (hscope.owner _ howned)
          · have hback : ¬ f.RepOf owner arm.2.target id := by
              rintro ⟨_, ⟨hc, _⟩ | ⟨heq, _⟩⟩
              · exact hlaid.1 hc
              · rw [← heq] at hedge howned
                exact hF.no_self_edge howner hrep hlaid.1 howned hedge
            rcases edge_cases hrep hedge hback hlater with hout | heq | hmem
            · exact (hscope.escapes id hrep.1 _ hedge hout).imp_right (List.mem_append_right _)
            · exact absurd heq howned
            · exact Or.inr (List.mem_append_left _ hmem)
      have hfreshArms : ∀ arm ∈ b.terminator.outgoingEdges, (id, arm.1) ∉ targets.map (·.1) :=
        fun arm _ hmem ↦ hfresh _ hmem List.mem_cons_self
      obtain ⟨targets₁, hfold, hlength₁, hkeys₁⟩ :=
        recordTargets_returns harms (nodup_arms b.terminator) hfreshArms
      have hfreshRest : ∀ key ∈ targets₁.map (·.1), key.1 ∉ rest.blocks := by
        intro key hkey
        rcases hkeys₁ key hkey with hkey | heq
        · exact fun hmem ↦ hfresh key hkey (List.mem_cons_of_mem _ hmem)
        · exact heq ▸ hnodup.1
      obtain ⟨targets₂, hrest, hlength₂, hkeys₂⟩ := ih howner
        (fun y hy ↦ hdeep (List.mem_cons_of_mem _ hy)) hheaders hlaid.2
        (fun r hr ↦ hreps r (List.mem_cons_of_mem _ hr)) hpairs.2
        (fun r hr t hedge ↦ by
          rcases List.mem_cons.mp (hclosed r (List.mem_cons_of_mem _ hr) t hedge) with rfl | ht
          · exact absurd hedge (hpairs.1 r hr)
          · exact ht)
        hscope hnodup.2 hfreshRest
      refine ⟨targets₂, ?_, ?_, fun key hkey ↦ ?_⟩
      · rw [validateScopes, hb]
        simp only [Option.bind_eq_bind, Option.bind_some, hfold, hrest]
      · have hcount : f.armCount id = b.terminator.outgoingEdges.length := by
          rw [armCount, hb, Option.map_some, Option.getD_some]
        rw [hlength₂, hlength₁, StructureItems.blocks, List.map_cons, List.sum_cons, hcount]
        omega
      · rcases hkeys₂ key hkey with hkey | hkey
        · rcases hkeys₁ key hkey with hkey | heq
          · exact Or.inl hkey
          · exact Or.inr (heq ▸ List.mem_cons_self)
        · exact Or.inr (List.mem_cons_of_mem _ hkey)
  | loop header body rest ihBody ihRest =>
      rw [StructureItems.heads, List.pairwise_cons] at hpairs
      obtain ⟨hchild, hregion, hbodyLaid, hrestLaid⟩ := hlaid
      rw [StructureItems.blocks] at hnodup
      obtain ⟨hbodyNodup, hrestNodup, hdisj⟩ := List.nodup_append.mp hnodup
      have hlater : ∀ t, f.ProjectedEdge owner header t → t ∈ rest.heads := by
        intro t hedge
        exact (List.mem_cons.mp (hclosed header List.mem_cons_self t hedge)).resolve_left
          (Ne.symm hedge.1)
      have hinner := hscope.enterLoop hchild hlater (hheaders List.mem_cons_self) fun y hy ↦
        hdeep (List.mem_cons_of_mem _ (List.mem_append_right _
          (StructureItems.heads_subset_deepHeads rest hy)))
      have hfreshBody : ∀ key ∈ targets.map (·.1), key.1 ∉ body.blocks := fun key hkey hmem ↦
        hfresh key hkey (List.mem_append_left _ hmem)
      obtain ⟨targets₁, hbody, hlength₁, hkeys₁⟩ := ihBody
        (fun k hk ↦ by
          cases hk
          exact hchild.isHeader)
        (fun y hy ↦ hdeep (List.mem_cons_of_mem _ (List.mem_append_left _ hy)))
        (fun y hy ↦ hheaders (List.mem_cons_of_mem _ (List.mem_append_left _ hy))) hbodyLaid
        (fun r hr ↦ (hregion.mem r).mp hr) hregion.ordered
        (fun r _ t hedge ↦ by
          obtain ⟨_, _, _, _, _, ht, _⟩ := hedge
          exact (hregion.mem t).mpr ht.self)
        hinner hbodyNodup hfreshBody
      have hfreshRest : ∀ key ∈ targets₁.map (·.1), key.1 ∉ rest.blocks := by
        intro key hkey hmem
        rcases hkeys₁ key hkey with hkey | hkey
        · exact hfresh key hkey (List.mem_append_right _ hmem)
        · exact hdisj key.1 hkey key.1 hmem (Eq.refl _)
      obtain ⟨targets₂, hrest, hlength₂, hkeys₂⟩ := ihRest howner
        (fun y hy ↦ hdeep (List.mem_cons_of_mem _ (List.mem_append_right _ hy)))
        (fun y hy ↦ hheaders (List.mem_cons_of_mem _ (List.mem_append_right _ hy))) hrestLaid
        (fun r hr ↦ hreps r (List.mem_cons_of_mem _ hr)) hpairs.2
        (fun r hr t hedge ↦ by
          rcases List.mem_cons.mp (hclosed r (List.mem_cons_of_mem _ hr) t hedge) with rfl | ht
          · exact absurd hedge (hpairs.1 r hr)
          · exact ht)
        hscope hrestNodup hfreshRest
      refine ⟨targets₂, ?_, ?_, fun key hkey ↦ ?_⟩
      · rw [validateScopes]
        simp only [Option.bind_eq_bind, Option.bind_some, hbody, hrest]
      · rw [hlength₂, hlength₁, StructureItems.blocks, List.map_append, List.sum_append]
        omega
      · rcases hkeys₂ key hkey with hkey | hkey
        · rcases hkeys₁ key hkey with hkey | hkey
          · exact Or.inl hkey
          · exact Or.inr (List.mem_append_left _ hkey)
        · exact Or.inr (List.mem_append_right _ hkey)

end KirFunction

end CalcKernel
