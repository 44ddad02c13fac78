import CalcKernel.Backend.Wasm.Reachable

/-!
# Discovered loops

`discover_loops` finds the natural loops of the flow graph, cut down to the reachable
blocks.  Its checks hold of the natural loops of any flow graph, so it always returns.
-/

namespace CalcKernel

open Relation

namespace KirFunction

/-- A reached block leads back to the block, which dominates it. -/
def IsHeader (f : KirFunction) (h : BlockId) : Prop :=
  ∃ latch, f.Reached latch ∧ f.flowGraph.edge latch h ∧ f.flowGraph.Dominates h latch

/-- The natural loops, by their headers. -/
structure LoopSet (f : KirFunction) (loops : List NaturalLoop) : Prop where
  headersNodup : (loops.map (·.header)).Nodup
  header : ∀ h, h ∈ loops.map (·.header) ↔ f.IsHeader h
  mem : ∀ l ∈ loops, ∀ x, x ∈ l.blocks ↔ f.Reached x ∧ f.flowGraph.InLoop l.header x
  nodup : ∀ l ∈ loops, l.blocks.Nodup

variable {f : KirFunction} {reachable : List BlockId} {entry h x y p : BlockId}

theorem IsHeader.reached (hh : f.IsHeader h) : f.Reached h := by
  obtain ⟨latch, hlatch, hedge, _⟩ := hh
  exact hlatch.tail hedge

theorem computeKirDominators_reached (hx : f.Reached x) (hy : f.Reached y) :
    f.computeKirDominators x y = true ↔ f.flowGraph.Dominates x y := by
  have hxMem := hx.mem_blockIds
  obtain ⟨entry, hentry, _⟩ := hx
  exact computeKirDominators_iff hentry hxMem hy.mem_blockIds

/-! ## Back edges -/

theorem backEdges_returns (hR : f.ReachableSet reachable) :
    ∃ edges, f.backEdges reachable f.computeKirDominators = some edges ∧
      ∀ h latch, (h, latch) ∈ edges ↔ f.Reached latch ∧ f.flowGraph.edge latch h ∧
        f.flowGraph.Dominates h latch := by
  obtain ⟨lists, hlists, hall⟩ := Lib.mapM_option_returns
    (R := fun source (edges : List (BlockId × BlockId)) ↦ ∀ h latch, (h, latch) ∈ edges ↔
      latch = source ∧ f.flowGraph.edge source h ∧ f.flowGraph.Dominates h source)
    (g := fun source ↦ do
      let block ← f.block? source
      some (((block.terminator.outgoingEdges.map (·.2.target)).filter
        (f.computeKirDominators · source)).map (·, source)))
    (l := reachable) (by
      intro source hsource
      obtain ⟨b, hb, htargets⟩ := hR.block source hsource
      have hreached := (hR.mem source).mp hsource
      refine ⟨_, by rw [hb, Option.bind_eq_bind, Option.bind_some, outgoingEdges_targets], ?_⟩
      intro h latch
      simp only [List.mem_map, List.mem_filter, Prod.mk.injEq]
      constructor
      · rintro ⟨t, ⟨ht, hdom⟩, rfl, rfl⟩
        have hedge := edge_of_block? hb ht (htargets t ht).1
        exact ⟨Eq.refl _, hedge,
          (computeKirDominators_reached (hreached.tail hedge) hreached).mp hdom⟩
      · rintro ⟨rfl, hedge, hdom⟩
        obtain ⟨c, hc, ht⟩ := block?_of_edge hR.idsNodup hedge
        cases hb.symm.trans hc
        exact ⟨h, ⟨ht, (computeKirDominators_reached (hreached.tail hedge) hreached).mpr hdom⟩,
          Eq.refl _, Eq.refl _⟩)
  refine ⟨lists.flatten, by rw [backEdges, hlists]; exact Eq.refl _, fun h latch ↦ ?_⟩
  rw [List.mem_flatten]
  constructor
  · rintro ⟨edges, hedges, hmem⟩
    obtain ⟨source, hsource, hspec⟩ := Lib.forall₂_mem_right hall hedges
    obtain ⟨rfl, hedge, hdom⟩ := (hspec h latch).mp hmem
    exact ⟨(hR.mem latch).mp hsource, hedge, hdom⟩
  · rintro ⟨hreached, hedge, hdom⟩
    obtain ⟨edges, hedges, hspec⟩ := Lib.forall₂_mem_left hall
      ((hR.mem latch).mpr hreached)
    exact ⟨edges, hedges, (hspec h latch).mpr ⟨Eq.refl _, hedge, hdom⟩⟩

/-! ## The blocks of one loop -/

/-- What adding blocks does to the worklist of a loop. -/
structure LoopGrows (h : BlockId) (added : List BlockId) (s t : Worklist) : Prop where
  seen : s.seen ⊆ t.seen
  work : s.work ⊆ t.work
  addedSeen : added ⊆ t.seen
  seenFrom : ∀ x ∈ t.seen, x ∈ s.seen ∨ (x ∈ added ∧ (x ≠ h → x ∈ t.work))
  workFrom : ∀ x ∈ t.work, x ∈ s.work ∨ (x ∈ added ∧ x ≠ h)
  nodup : s.seen.Nodup → t.seen.Nodup
  length : t.work.length + s.seen.length ≤ s.work.length + t.seen.length

theorem addLoopBlock_grows (h : BlockId) (s : Worklist) (x : BlockId) :
    LoopGrows h [x] s (s.addLoopBlock h x) := by
  unfold Worklist.addLoopBlock
  split
  · rename_i hx
    exact ⟨List.Subset.refl _, List.Subset.refl _, by simpa using hx, fun _ hy ↦ Or.inl hy,
      fun _ hy ↦ Or.inl hy, fun hn ↦ hn, le_refl _⟩
  · rename_i hx
    have hwork : s.work ⊆ if x = h then s.work else x :: s.work := by
      split
      · exact List.Subset.refl _
      · exact List.subset_cons_self _ _
    refine ⟨fun y hy ↦ (List.mem_orderedInsert _).mpr (Or.inr hy), hwork, ?_, fun y hy ↦ ?_,
      fun y hy ↦ ?_, fun hn ↦ nodup_orderedInsert hn hx, ?_⟩
    · intro y hy
      exact (List.mem_orderedInsert _).mpr (Or.inl (List.mem_singleton.mp hy))
    · rcases (List.mem_orderedInsert _).mp hy with rfl | hy
      · refine Or.inr ⟨List.mem_singleton_self _, fun hne ↦ ?_⟩
        rw [if_neg hne]
        exact List.mem_cons_self
      · exact Or.inl hy
    · dsimp only at hy
      split at hy
      · exact Or.inl hy
      · rename_i hne
        rcases List.mem_cons.mp hy with rfl | hy
        · exact Or.inr ⟨List.mem_singleton_self _, hne⟩
        · exact Or.inl hy
    · rw [length_orderedInsert]
      dsimp only
      split
      · omega
      · rw [List.length_cons]
        omega

theorem addLoopBlocks_grow (h : BlockId) (added : List BlockId) (s : Worklist) :
    LoopGrows h added s (added.foldl (Worklist.addLoopBlock h) s) := by
  induction added generalizing s with
  | nil =>
      exact ⟨List.Subset.refl _, List.Subset.refl _, List.nil_subset _, fun _ hy ↦ Or.inl hy,
        fun _ hy ↦ Or.inl hy, fun hn ↦ hn, le_refl _⟩
  | cons x added ih =>
      have hfirst := addLoopBlock_grows h s x
      have hrest := ih (s.addLoopBlock h x)
      rw [List.foldl_cons]
      refine ⟨List.Subset.trans hfirst.seen hrest.seen, List.Subset.trans hfirst.work hrest.work,
        ?_, fun y hy ↦ ?_, fun y hy ↦ ?_, fun hn ↦ hrest.nodup (hfirst.nodup hn), ?_⟩
      · intro y hy
        rcases List.mem_cons.mp hy with rfl | hy
        · exact hrest.seen (hfirst.addedSeen (List.mem_singleton_self _))
        · exact hrest.addedSeen hy
      · rcases hrest.seenFrom y hy with hy | ⟨hy, hwork⟩
        · rcases hfirst.seenFrom y hy with hy | ⟨hy, hwork⟩
          · exact Or.inl hy
          · rw [List.mem_singleton.mp hy] at hwork ⊢
            exact Or.inr ⟨List.mem_cons_self, fun hne ↦ hrest.work (hwork hne)⟩
        · exact Or.inr ⟨List.mem_cons_of_mem _ hy, hwork⟩
      · rcases hrest.workFrom y hy with hy | ⟨hy, hne⟩
        · rcases hfirst.workFrom y hy with hy | ⟨hy, hne⟩
          · exact Or.inl hy
          · rw [List.mem_singleton.mp hy] at hne ⊢
            exact Or.inr ⟨List.mem_cons_self, hne⟩
        · exact Or.inr ⟨List.mem_cons_of_mem _ hy, hne⟩
      · have h₁ := hfirst.length
        have h₂ := hrest.length
        omega

/-- What holds between two rounds of the stack. -/
structure StackInvariant (f : KirFunction) (h : BlockId) (s : Worklist) : Prop where
  nodup : s.seen.Nodup
  header : h ∈ s.seen
  inLoop : ∀ x ∈ s.seen, f.Reached x ∧ f.flowGraph.InLoop h x
  work : ∀ x ∈ s.work, x ∈ s.seen ∧ x ≠ h
  latches : ∀ x, f.Reached x → f.flowGraph.edge x h → f.flowGraph.Dominates h x → x ∈ s.seen
  closed : ∀ x ∈ s.seen, x ≠ h → x ∈ s.work ∨
    ∀ y, f.Reached y → f.flowGraph.edge y x → y ∈ s.seen

theorem StackInvariant.start (hh : f.IsHeader h) {latches : List BlockId}
    (hlatches : ∀ x, x ∈ latches ↔ f.Reached x ∧ f.flowGraph.edge x h ∧ f.flowGraph.Dominates h x) :
    StackInvariant f h (latches.foldl (Worklist.addLoopBlock h) ⟨[h], []⟩) := by
  have hgrow := addLoopBlocks_grow h latches ⟨[h], []⟩
  refine ⟨hgrow.nodup (List.nodup_singleton h), hgrow.seen (List.mem_singleton_self h),
    fun x hx ↦ ?_, fun x hx ↦ ?_, fun x hx hedge hdom ↦ ?_, fun x hx hne ↦ ?_⟩
  · rcases hgrow.seenFrom x hx with hx | ⟨hx, _⟩
    · obtain rfl := List.mem_singleton.mp hx
      exact ⟨hh.reached, Or.inl (Eq.refl _)⟩
    · obtain ⟨hreached, hedge, hdom⟩ := (hlatches x).mp hx
      refine ⟨hreached, ?_⟩
      by_cases hne : x = h
      · exact Or.inl hne
      · exact Or.inr ⟨hne, x, hedge, hdom, .refl⟩
  · rcases hgrow.workFrom x hx with hx | ⟨hx, hne⟩
    · cases hx
    · exact ⟨hgrow.addedSeen hx, hne⟩
  · exact hgrow.addedSeen ((hlatches x).mpr ⟨hx, hedge, hdom⟩)
  · rcases hgrow.seenFrom x hx with hx | ⟨_, hwork⟩
    · exact absurd (List.mem_singleton.mp hx) hne
    · exact Or.inl (hwork hne)

theorem predecessors_of_reached (hR : f.ReachableSet reachable) (hx : f.Reached x) :
    ∃ incoming, f.predecessors reachable x = some incoming ∧
      ∀ y, y ∈ incoming ↔ f.Reached y ∧ f.flowGraph.edge y x := by
  refine ⟨_, if_pos ((hR.mem x).mpr hx), fun y ↦ ?_⟩
  rw [List.mem_filter, decide_eq_true_eq, hR.mem y]
  constructor
  · rintro ⟨hy, hreached⟩
    exact ⟨hreached, hy, hx.mem_blockIds⟩
  · rintro ⟨hreached, hy, _⟩
    exact ⟨hy, hreached⟩

theorem StackInvariant.round (hR : f.ReachableSet reachable) {s : Worklist}
    (hinv : StackInvariant f h s) (hwork : s.work ≠ []) :
    ∃ t, f.growLoop reachable h s = some t ∧ StackInvariant f h t ∧
      reachable.length - t.seen.length + t.work.length <
        reachable.length - s.seen.length + s.work.length := by
  obtain ⟨seen, work⟩ := s
  cases work with
  | nil => exact absurd (Eq.refl _) hwork
  | cons x work =>
      obtain ⟨hxSeen, hxh⟩ := hinv.work x List.mem_cons_self
      obtain ⟨hxReached, hxLoop⟩ := hinv.inLoop x hxSeen
      obtain ⟨incoming, hincoming, hpreds⟩ := predecessors_of_reached hR hxReached
      have hgrow := addLoopBlocks_grow h incoming ⟨seen, work⟩
      have hnew : StackInvariant f h (incoming.foldl (Worklist.addLoopBlock h) ⟨seen, work⟩) := by
        refine ⟨hgrow.nodup hinv.nodup, hgrow.seen hinv.header, fun y hy ↦ ?_, fun y hy ↦ ?_,
          fun y hy hedge hdom ↦ hgrow.seen (hinv.latches y hy hedge hdom), fun y hy hne ↦ ?_⟩
        · rcases hgrow.seenFrom y hy with hy | ⟨hy, _⟩
          · exact hinv.inLoop y hy
          · obtain ⟨hyReached, hedge⟩ := (hpreds y).mp hy
            exact ⟨hyReached, hxLoop.of_edge hxh hedge⟩
        · rcases hgrow.workFrom y hy with hy | ⟨hy, hne⟩
          · obtain ⟨hySeen, hyh⟩ := hinv.work y (List.mem_cons_of_mem _ hy)
            exact ⟨hgrow.seen hySeen, hyh⟩
          · exact ⟨hgrow.addedSeen hy, hne⟩
        · rcases hgrow.seenFrom y hy with hy | ⟨_, hyWork⟩
          · rcases hinv.closed y hy hne with hy | hy
            · rcases List.mem_cons.mp hy with rfl | hy
              · exact Or.inr fun z hz hedge ↦ hgrow.addedSeen ((hpreds z).mpr ⟨hz, hedge⟩)
              · exact Or.inl (hgrow.work hy)
            · exact Or.inr fun z hz hedge ↦ hgrow.seen (hy z hz hedge)
          · exact Or.inl (hyWork hne)
      refine ⟨_, ?_, hnew, ?_⟩
      · simp only [growLoop, hincoming, Option.bind_eq_bind, Option.bind_some]
      · have hlen : (incoming.foldl (Worklist.addLoopBlock h) ⟨seen, work⟩).seen.length ≤
            reachable.length :=
          (List.subperm_of_subset hnew.nodup fun y hy ↦
            (hR.mem y).mpr (hnew.inLoop y hy).1).length_le
        have hlength := hgrow.length
        simp only [List.length_cons] at hlength ⊢
        omega

theorem StackInvariant.mem_iff {s : Worklist} (hinv : StackInvariant f h s) (hwork : s.work = [])
    (x : BlockId) : x ∈ s.seen ↔ f.Reached x ∧ f.flowGraph.InLoop h x := by
  refine ⟨hinv.inLoop x, ?_⟩
  rintro ⟨hx, rfl | ⟨hne, latch, hlatch, hdom, hp⟩⟩
  · exact hinv.header
  · -- from the latch back along the path
    unfold Lib.FlowGraph.Avoids at hp
    induction hp using ReflTransGen.head_induction_on with
    | refl => exact hinv.latches latch hx hlatch hdom
    | @head a c hstep _ ih =>
        have hc : c ∈ s.seen := ih (hx.tail hstep.1) hstep.2
        rcases hinv.closed c hc hstep.2 with hmem | hclosed
        · rw [hwork] at hmem
          cases hmem
        · exact hclosed a hx hstep.1

theorem loopBlocks_returns (hR : f.ReachableSet reachable) (hh : f.IsHeader h)
    {latches : List BlockId}
    (hlatches : ∀ x, x ∈ latches ↔ f.Reached x ∧ f.flowGraph.edge x h ∧ f.flowGraph.Dominates h x) :
    ∃ blocks, f.loopBlocks reachable h latches = some blocks ∧ blocks.Nodup ∧
      ∀ x, x ∈ blocks ↔ f.Reached x ∧ f.flowGraph.InLoop h x := by
  have hstart := StackInvariant.start hh hlatches
  have hgrow := (addLoopBlocks_grow h latches ⟨[h], []⟩).length
  have hlen := (List.subperm_of_subset hstart.nodup fun y hy ↦
    (hR.mem y).mpr (hstart.inLoop y hy).1).length_le
  obtain ⟨s, hloop, hinv, hdone⟩ := Lib.whileLoop.terminates (fun s : Worklist ↦ !s.work.isEmpty)
    (f.growLoop reachable h) reachable.length (I := StackInvariant f h)
    (fun s ↦ reachable.length - s.seen.length + s.work.length)
    (fun s hinv hcond ↦ hinv.round hR (by simpa using hcond)) hstart (by
      simp only [List.length_singleton, List.length_nil] at hgrow
      omega)
  refine ⟨s.seen, ?_, hinv.nodup, hinv.mem_iff (by simpa using hdone)⟩
  rw [loopBlocks, hloop]
  exact Eq.refl _

/-! ## All loops -/

theorem LoopSet.pairwise_nested {loops : List NaturalLoop} (hL : f.LoopSet loops) :
    loops.Pairwise NaturalLoop.Nested := by
  have hne := List.pairwise_map.mp hL.headersNodup
  refine hne.imp_of_mem fun {l k} hl hk hlk ↦ ?_
  by_cases hmeet : ∃ x, x ∈ l.blocks ∧ x ∈ k.blocks
  · obtain ⟨x, hxl, hxk⟩ := hmeet
    obtain ⟨hx, hxl⟩ := (hL.mem l hl x).mp hxl
    have hxk := ((hL.mem k hk x).mp hxk).2
    have hheader : ∀ {m : NaturalLoop}, m ∈ loops → m.header ∈ m.blocks := by
      intro m hm
      have hm' := (hL.header m.header).mp (List.mem_map_of_mem hm)
      exact (hL.mem m hm m.header).mpr ⟨hm'.reached, Or.inl (Eq.refl _)⟩
    rcases Lib.FlowGraph.InLoop.nested_or_nested hlk hx.reachable hxl hxk with
      ⟨hsub, hnot⟩ | ⟨hsub, hnot⟩
    · refine Or.inr ⟨fun heq ↦ hnot ?_, Or.inr fun y hy ↦ ?_⟩
      · exact ((hL.mem k hk l.header).mp (heq ▸ hheader hl)).2
      · obtain ⟨hyReached, hyLoop⟩ := (hL.mem k hk y).mp hy
        exact (hL.mem l hl y).mpr ⟨hyReached, hsub y hyLoop⟩
    · refine Or.inr ⟨fun heq ↦ hnot ?_, Or.inl fun y hy ↦ ?_⟩
      · exact ((hL.mem l hl k.header).mp (heq ▸ hheader hk)).2
      · obtain ⟨hyReached, hyLoop⟩ := (hL.mem l hl y).mp hy
        exact (hL.mem k hk y).mpr ⟨hyReached, hsub y hyLoop⟩
  · exact Or.inl fun x hxl hxk ↦ hmeet ⟨x, hxl, hxk⟩

theorem LoopSet.isClosed {loops : List NaturalLoop} (hR : f.ReachableSet reachable)
    (hL : f.LoopSet loops) {l : NaturalLoop} (hl : l ∈ loops) : f.loopIsClosed reachable l = true := by
  unfold loopIsClosed
  rw [List.all_eq_true]
  intro x hx
  obtain ⟨hx, hne⟩ := List.mem_filter.mp hx
  obtain ⟨hreached, hloop⟩ := (hL.mem l hl x).mp hx
  obtain ⟨incoming, hincoming, hpreds⟩ := predecessors_of_reached hR hreached
  rw [hincoming]
  dsimp only
  rw [List.all_eq_true]
  intro y hy
  obtain ⟨hyReached, hedge⟩ := (hpreds y).mp hy
  simpa using (hL.mem l hl y).mpr ⟨hyReached, hloop.of_edge (by simpa using hne) hedge⟩

theorem discoverLoops_returns (hR : f.ReachableSet reachable) :
    ∃ loops, f.discoverLoops reachable f.computeKirDominators = some loops ∧ f.LoopSet loops := by
  obtain ⟨edges, hedges, hback⟩ := backEdges_returns hR
  have hheader : ∀ h, h ∈ Lib.sortedSet (edges.map (·.1)) ↔ f.IsHeader h := by
    intro h
    rw [Lib.mem_sortedSet, List.mem_map]
    constructor
    · rintro ⟨⟨h, latch⟩, hmem, rfl⟩
      exact ⟨latch, (hback h latch).mp hmem⟩
    · rintro ⟨latch, hlatch⟩
      exact ⟨(h, latch), (hback h latch).mpr hlatch, Eq.refl _⟩
  obtain ⟨loops, hloops, hall⟩ := Lib.mapM_option_returns
    (R := fun header l ↦ l.header = header ∧ l.blocks.Nodup ∧
      ∀ x, x ∈ l.blocks ↔ f.Reached x ∧ f.flowGraph.InLoop header x)
    (g := fun header ↦ do
      let latches := Lib.sortedSet ((edges.filter (·.1 = header)).map (·.2))
      let blocks ← f.loopBlocks reachable header latches
      some (NaturalLoop.mk header blocks none))
    (l := Lib.sortedSet (edges.map (·.1))) (by
      intro header hmem
      have hlatches : ∀ x, x ∈ Lib.sortedSet ((edges.filter (·.1 = header)).map (·.2)) ↔
          f.Reached x ∧ f.flowGraph.edge x header ∧ f.flowGraph.Dominates header x := by
        intro x
        rw [Lib.mem_sortedSet, List.mem_map, ← hback header x]
        constructor
        · rintro ⟨⟨h, latch⟩, hmem, rfl⟩
          obtain ⟨hedge, hh⟩ := List.mem_filter.mp hmem
          obtain rfl : h = header := by simpa using hh
          exact hedge
        · intro hmem
          exact ⟨(header, x), List.mem_filter.mpr ⟨hmem, by simp⟩, Eq.refl _⟩
      obtain ⟨blocks, hblocks, hnodup, hspec⟩ :=
        loopBlocks_returns hR ((hheader header).mp hmem) hlatches
      refine ⟨⟨header, blocks, none⟩, ?_, Eq.refl _, hnodup, hspec⟩
      dsimp only
      rw [hblocks]
      exact Eq.refl _)
  have hheaders : loops.map (·.header) = Lib.sortedSet (edges.map (·.1)) := by
    have hkeys := hall.imp fun header l h ↦ h.1
    rw [← List.forall₂_eq_eq_eq, List.forall₂_map_left_iff]
    exact hkeys.flip
  have hL : f.LoopSet loops := by
    refine ⟨?_, fun h ↦ ?_, fun l hl x ↦ ?_, fun l hl ↦ ?_⟩
    · rw [hheaders]
      exact Lib.sortedSet_nodup _
    · rw [hheaders]
      exact hheader h
    · obtain ⟨header, _, rfl, _, hspec⟩ := Lib.forall₂_mem_right hall hl
      exact hspec x
    · obtain ⟨_, _, _, hnodup, _⟩ := Lib.forall₂_mem_right hall hl
      exact hnodup
  refine ⟨loops, ?_, hL⟩
  unfold discoverLoops
  rw [hedges, Option.bind_eq_bind, Option.bind_some]
  rw [hloops, Option.bind_eq_bind, Option.bind_some, if_pos]
  refine ⟨hL.pairwise_nested, List.all_eq_true.mpr fun l hl ↦ hL.isClosed hR hl⟩

end KirFunction

end CalcKernel
