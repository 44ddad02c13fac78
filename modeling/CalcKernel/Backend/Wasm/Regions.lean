import CalcKernel.Backend.Wasm.Forest
import CalcKernel.Backend.Wasm.TopologicalOrder
import CalcKernel.Backend.Wasm.StructuredNest

/-!
# Regions

What `build_region` lays out: the blocks of the region's scope that are in none of its
loops and the headers of its loops, each once, none before the source of an edge to it.
-/

namespace CalcKernel

open Relation

namespace KirFunction

variable {f : KirFunction} {reachable scope : List BlockId} {loops children : List NaturalLoop}
  {owner : Option BlockId} {entry r s t x y h c : BlockId} {items : StructureItems}

/-- The item that stands for a block of the region: the loop the block is in, or itself. -/
def RepOf (f : KirFunction) (owner : Option BlockId) (x r : BlockId) : Prop :=
  x ∈ f.scopeSet owner ∧ ((f.Child owner r ∧ x ∈ f.loopSet r) ∨
    (r = x ∧ ∀ c, f.Child owner c → x ∉ f.loopSet c))

/-- An edge between two items, not back to the owner. -/
def ProjectedEdge (f : KirFunction) (owner : Option BlockId) (s t : BlockId) : Prop :=
  s ≠ t ∧ ∃ x y, f.RepOf owner x s ∧ f.flowGraph.edge x y ∧ f.RepOf owner y t ∧ owner ≠ some y

theorem RepOf.unique {r' : BlockId} (h : f.RepOf owner x r) (h' : f.RepOf owner x r') : r = r' := by
  obtain ⟨_, ⟨hr, hxr⟩ | ⟨rfl, hno⟩⟩ := h
  · obtain ⟨_, ⟨hr', hxr'⟩ | ⟨rfl, hno'⟩⟩ := h'
    · by_contra hne
      exact Set.disjoint_left.mp ((laminar_loops f).siblings_disjoint hr hr' hne) hxr hxr'
    · exact absurd hxr (hno' r hr)
  · obtain ⟨_, ⟨hr', hxr'⟩ | ⟨rfl, _⟩⟩ := h'
    · exact absurd hxr' (hno r' hr')
    · exact Eq.refl _

/-- An item stands for itself. -/
theorem RepOf.self (h : f.RepOf owner x r) : f.RepOf owner r r := by
  obtain ⟨hx, ⟨hr, hxr⟩ | ⟨rfl, hno⟩⟩ := h
  · have hmem := hr.isHeader.mem_loopSet
    exact ⟨hr.subset_scope hmem, Or.inl ⟨hr, hmem⟩⟩
  · exact ⟨hx, Or.inr ⟨Eq.refl _, hno⟩⟩

theorem Child.repOf (hc : f.Child owner c) (hx : x ∈ f.loopSet c) : f.RepOf owner x c :=
  ⟨hc.subset_scope hx, Or.inl ⟨hc, hx⟩⟩

/-- In its own region a header stands for itself, and so does the entry at the top. -/
theorem repOf_first (hentry : owner = some entry ∨ (owner = none ∧ f.entryId? = some entry))
    (h : f.RepOf owner entry r) : r = entry := by
  obtain ⟨_, ⟨hr, hmem⟩ | ⟨rfl, _⟩⟩ := h
  · rcases hentry with rfl | ⟨rfl, hentry⟩
    · exact absurd hmem (not_mem_of_child hr)
    · exact entry_of_mem_loopSet hentry hmem
  · exact Eq.refl _

/-! ## The functions of the source -/

/-- The region belongs to the function or to a loop. -/
def IsOwner (f : KirFunction) (owner : Option BlockId) : Prop := ∀ h, owner = some h → f.IsHeader h

theorem regionScope_spec (hR : f.ReachableSet reachable) (hF : f.LoopForest loops)
    (howner : f.IsOwner owner) : ∃ scope, regionScope reachable loops owner = some scope ∧
      ∀ x, x ∈ scope ↔ x ∈ f.scopeSet owner := by
  cases owner with
  | none => exact ⟨reachable, Eq.refl _, fun x ↦ hR.mem x⟩
  | some h =>
      obtain ⟨l, hl, rfl⟩ := List.mem_map.mp ((hF.header h).mpr (howner h (Eq.refl _)))
      refine ⟨l.blocks, ?_, fun x ↦ hF.mem_blocks hl⟩
      rw [regionScope, Lib.find?_of_mem NaturalLoop.header hF.headersNodup hl]
      exact Eq.refl _

theorem child_iff (hF : f.LoopForest loops) :
    f.Child owner c ↔ ∃ l ∈ loops.filter (·.parent = owner), l.header = c := by
  constructor
  · intro hc
    obtain ⟨l, hl, rfl⟩ := List.mem_map.mp ((hF.header c).mpr hc.isHeader)
    have heq := (laminar_loops f).owner_unique (hF.parent l hl) hc
    exact ⟨l, List.mem_filter.mpr ⟨hl, by simpa using heq⟩, Eq.refl _⟩
  · rintro ⟨l, hl, rfl⟩
    obtain ⟨hmem, heq⟩ := List.mem_filter.mp hl
    obtain rfl : l.parent = owner := by simpa using heq
    exact hF.parent l hmem

theorem foldl_rep_of_not_mem (base : BlockId → Option BlockId)
    (hx : ∀ l ∈ children, x ∉ l.blocks) :
    children.foldl (fun rep child block ↦
      if block ∈ child.blocks then some child.header else rep block) base x = base x := by
  induction children generalizing base with
  | nil => exact Eq.refl _
  | cons l children ih =>
      rw [List.foldl_cons, ih _ fun k hk ↦ hx k (List.mem_cons_of_mem _ hk),
        if_neg (hx l List.mem_cons_self)]

theorem foldl_rep_of_mem (base : BlockId → Option BlockId) (hx : ∃ l ∈ children, x ∈ l.blocks)
    (hsame : ∀ l ∈ children, x ∈ l.blocks → l.header = r) :
    children.foldl (fun rep child block ↦
      if block ∈ child.blocks then some child.header else rep block) base x = some r := by
  induction children generalizing base with
  | nil =>
      obtain ⟨l, hl, _⟩ := hx
      cases hl
  | cons k children ih =>
      rw [List.foldl_cons]
      by_cases hlater : ∃ l ∈ children, x ∈ l.blocks
      · exact ih _ hlater fun l hl ↦ hsame l (List.mem_cons_of_mem _ hl)
      · obtain ⟨l, hl, hxl⟩ := hx
        have hlk : l = k := (List.mem_cons.mp hl).resolve_right fun h ↦ hlater ⟨l, h, hxl⟩
        subst hlk
        rw [foldl_rep_of_not_mem _ fun m hm hxm ↦ hlater ⟨m, hm, hxm⟩, if_pos hxl,
          hsame l List.mem_cons_self hxl]

theorem representative_iff (hF : f.LoopForest loops) (hscope : ∀ x, x ∈ scope ↔ x ∈ f.scopeSet owner) :
    representative (loops.filter (·.parent = owner)) scope x = some r ↔ f.RepOf owner x r := by
  have hblocks : ∀ {l}, l ∈ loops.filter (·.parent = owner) →
      (x ∈ l.blocks ↔ x ∈ f.loopSet l.header) := fun hl ↦
    hF.mem_blocks (List.mem_of_mem_filter hl)
  unfold representative
  by_cases hinside : ∃ l ∈ loops.filter (·.parent = owner), x ∈ l.blocks
  · obtain ⟨l, hl, hxl⟩ := hinside
    have hchild : f.Child owner l.header := (child_iff hF).mpr ⟨l, hl, Eq.refl _⟩
    have hrep : f.RepOf owner x l.header := hchild.repOf ((hblocks hl).mp hxl)
    rw [foldl_rep_of_mem (r := l.header) _ ⟨l, hl, hxl⟩ fun k hk hxk ↦
      ((child_iff hF).mpr ⟨k, hk, Eq.refl _⟩ : f.Child owner k.header).repOf
        ((hblocks hk).mp hxk) |>.unique hrep]
    constructor
    · intro h
      exact Option.some.inj h ▸ hrep
    · intro h
      rw [h.unique hrep]
  · push Not at hinside
    rw [foldl_rep_of_not_mem _ hinside]
    have hno : ∀ c, f.Child owner c → x ∉ f.loopSet c := by
      intro c hc hmem
      obtain ⟨l, hl, rfl⟩ := (child_iff hF).mp hc
      exact hinside l hl ((hblocks hl).mpr hmem)
    constructor
    · intro h
      split at h
      · rename_i hx
        cases h
        exact ⟨(hscope _).mp hx, Or.inr ⟨Eq.refl _, hno⟩⟩
      · cases h
    · rintro ⟨hx, ⟨hr, hmem⟩ | ⟨rfl, _⟩⟩
      · exact absurd hmem (hno r hr)
      · rw [if_pos ((hscope _).mpr hx)]

theorem scopeSet_reached (hx : x ∈ f.scopeSet owner) : f.Reached x := by
  cases owner with
  | none => exact hx
  | some h => exact hx.1

/-- The projected edges that leave one block. -/
theorem projectedEdges_source (hR : f.ReachableSet reachable) (hF : f.LoopForest loops)
    (hscope : ∀ x, x ∈ scope ↔ x ∈ f.scopeSet owner) {x : BlockId} (hx : x ∈ scope) :
    ∃ edges, (do
        let sourceItem ← representative (loops.filter (·.parent = owner)) scope x
        let block ← f.block? x
        some (block.terminator.outgoingEdges.filterMap fun (_, edge) ↦ do
          let targetItem ← representative (loops.filter (·.parent = owner)) scope edge.target
          if sourceItem = targetItem ∨ owner = some edge.target then none
          else some (sourceItem, targetItem))) = some edges ∧
      ∀ s t, (s, t) ∈ edges ↔ s ≠ t ∧
        f.RepOf owner x s ∧ ∃ y, f.flowGraph.edge x y ∧ f.RepOf owner y t ∧ owner ≠ some y := by
  have hxScope := (hscope x).mp hx
  have hxReached := scopeSet_reached hxScope
  obtain ⟨b, hb, htargets⟩ := hR.block x ((hR.mem x).mpr hxReached)
  obtain ⟨r, hr⟩ : ∃ r, f.RepOf owner x r := by
    by_cases hinside : ∃ c, f.Child owner c ∧ x ∈ f.loopSet c
    · obtain ⟨c, hc, hxc⟩ := hinside
      exact ⟨c, hc.repOf hxc⟩
    · push Not at hinside
      exact ⟨x, hxScope, Or.inr ⟨Eq.refl _, hinside⟩⟩
  refine ⟨_, by rw [(representative_iff hF hscope).mpr hr, hb]; exact Eq.refl _, fun s t ↦ ?_⟩
  rw [List.mem_filterMap]
  constructor
  · rintro ⟨⟨arm, edge⟩, harm, hedge⟩
    obtain ⟨t', ht', hedge⟩ := Option.bind_eq_some_iff.mp hedge
    split at hedge
    · cases hedge
    · rename_i hne
      cases hedge
      rw [not_or] at hne
      have htarget : edge.target ∈ b.terminator.successors :=
        outgoingEdges_targets b.terminator ▸ List.mem_map_of_mem harm
      exact ⟨hne.1, hr, edge.target, edge_of_block? hb htarget (htargets _ htarget).1,
        (representative_iff hF hscope).mp ht', hne.2⟩
  · rintro ⟨hne, hs, y, hedge, ht, howner⟩
    obtain ⟨c, hc, hy⟩ := block?_of_edge hR.idsNodup hedge
    cases hb.symm.trans hc
    rw [← outgoingEdges_targets] at hy
    obtain ⟨⟨arm, edge⟩, harm, rfl⟩ := List.mem_map.mp hy
    obtain rfl := hs.unique hr
    refine ⟨(arm, edge), harm, ?_⟩
    dsimp only
    rw [(representative_iff hF hscope).mpr ht, Option.bind_eq_bind, Option.bind_some,
      if_neg (not_or.mpr ⟨hne, howner⟩)]

theorem projectedEdges_returns (hR : f.ReachableSet reachable) (hF : f.LoopForest loops)
    (hscope : ∀ x, x ∈ scope ↔ x ∈ f.scopeSet owner) :
    ∃ edges, f.projectedEdges owner scope
        (representative (loops.filter (·.parent = owner)) scope) = some edges ∧
      ∀ s t, (s, t) ∈ edges ↔ f.ProjectedEdge owner s t := by
  obtain ⟨lists, hlists, hall⟩ := Lib.mapM_option_returns (l := scope)
    (R := fun x (edges : List (BlockId × BlockId)) ↦ ∀ s t, (s, t) ∈ edges ↔ s ≠ t ∧
      f.RepOf owner x s ∧ ∃ y, f.flowGraph.edge x y ∧ f.RepOf owner y t ∧ owner ≠ some y)
    fun x hx ↦ projectedEdges_source hR hF hscope hx
  refine ⟨lists.flatten, by rw [projectedEdges, hlists]; exact Eq.refl _, fun s t ↦ ?_⟩
  rw [List.mem_flatten]
  constructor
  · rintro ⟨edges, hedges, hmem⟩
    obtain ⟨x, _, hspec⟩ := Lib.forall₂_mem_right hall hedges
    obtain ⟨hne, hs, y, hedge, ht, howner⟩ := (hspec s t).mp hmem
    exact ⟨hne, x, y, hs, hedge, ht, howner⟩
  · rintro ⟨hne, x, y, hs, hedge, ht, howner⟩
    obtain ⟨edges, hedges, hspec⟩ := Lib.forall₂_mem_left hall ((hscope x).mpr hs.1)
    exact ⟨edges, hedges, (hspec s t).mpr ⟨hne, hs, y, hedge, ht, howner⟩⟩

/-- The order of the items, or none when some are left out. -/
theorem regionOrder_spec (hR : f.ReachableSet reachable) (hF : f.LoopForest loops)
    (hscope : ∀ x, x ∈ scope ↔ x ∈ f.scopeSet owner) :
    ∃ items edges sorted, items.Nodup ∧ (∀ r, r ∈ items ↔ f.RepOf owner r r) ∧
      (∀ s t, (s, t) ∈ edges ↔ f.ProjectedEdge owner s t) ∧ SortedItems items edges sorted ∧
      f.regionOrder owner (loops.filter (·.parent = owner)) scope =
        if sorted.length = items.length then some sorted else none := by
  obtain ⟨edges, hedges, hedgeIff⟩ := projectedEdges_returns hR hF hscope
  have hitems : ∀ r, r ∈ Lib.sortedSet ((scope ++ (loops.filter (·.parent = owner)).flatMap
      (·.blocks)).filterMap (representative (loops.filter (·.parent = owner)) scope)) ↔
      f.RepOf owner r r := by
    intro r
    rw [Lib.mem_sortedSet, List.mem_filterMap]
    constructor
    · rintro ⟨x, _, hrep⟩
      exact ((representative_iff hF hscope).mp hrep).self
    · intro hr
      exact ⟨r, List.mem_append_left _ ((hscope r).mpr hr.1), (representative_iff hF hscope).mpr hr⟩
  have hproper : properEdges edges = edges := by
    refine List.filter_eq_self.mpr fun e he ↦ ?_
    simpa using ((hedgeIff e.1 e.2).mp he).1
  obtain ⟨sorted, hsorted, horder⟩ := stableTopologicalOrder_spec (Lib.sortedSet_nodup ((scope ++ (loops.filter (·.parent = owner)).flatMap
      (·.blocks)).filterMap (representative (loops.filter (·.parent = owner)) scope)))
    (fun t ht ↦ by
      have hmem := (scopeSet_reached ((hitems t).mp ht).1).mem_blockIds
      exact Option.isSome_iff_exists.mp (List.isSome_idxOf?.mpr hmem))
    (fun e he ↦ by
      obtain ⟨_, x, y, hs, _, ht, _⟩ := (hedgeIff e.1 e.2).mp he
      exact ⟨(hitems _).mpr hs.self, (hitems _).mpr ht.self⟩)
  rw [hproper] at hsorted
  refine ⟨_, edges, sorted, Lib.sortedSet_nodup _, hitems, hedgeIff, hsorted, ?_⟩
  unfold regionOrder
  dsimp only
  rw [hedges, Option.bind_eq_bind, Option.bind_some]
  exact horder

/-! ## The regions laid out -/

/-- The items of one region. -/
structure RegionSpec (f : KirFunction) (owner : Option BlockId) (entry : BlockId)
    (items : StructureItems) : Prop where
  nodup : items.heads.Nodup
  mem : ∀ r, r ∈ items.heads ↔ f.RepOf owner r r
  ordered : items.heads.Pairwise fun a b ↦ ¬ f.ProjectedEdge owner b a
  first : items.heads.head? = some entry

/-- The items that are loops are those of the region's loops, laid out as regions. -/
def LaidOut (f : KirFunction) (owner : Option BlockId) : StructureItems → Prop
  | .nil => True
  | .block id rest => ¬ f.Child owner id ∧ LaidOut f owner rest
  | .loop header body rest =>
      f.Child owner header ∧ f.RegionSpec (some header) header body ∧
        LaidOut f (some header) body ∧ LaidOut f owner rest

theorem layItems_eq_some {headers sorted : List BlockId} {body : BlockId → Option StructureItems}
    (hheaders : ∀ c, c ∈ headers ↔ f.Child owner c)
    (hbody : ∀ c inner, f.Child owner c → body c = some inner →
      f.RegionSpec (some c) c inner ∧ f.LaidOut (some c) inner)
    (h : layItems headers body sorted = some items) :
    items.heads = sorted ∧ f.LaidOut owner items := by
  induction sorted generalizing items with
  | nil =>
      cases h
      exact ⟨Eq.refl _, trivial⟩
  | cons item sorted ih =>
      rw [layItems] at h
      split at h
      · rename_i hchild
        have hchild := (hheaders item).mp hchild
        obtain ⟨inner, hinner, h⟩ := Option.bind_eq_some_iff.mp h
        obtain ⟨rest, hrest, h⟩ := Option.bind_eq_some_iff.mp h
        cases h
        obtain ⟨hheads, hlaid⟩ := ih hrest
        obtain ⟨hregion, hinnerLaid⟩ := hbody item inner hchild hinner
        exact ⟨by rw [StructureItems.heads, hheads], hchild, hregion, hinnerLaid, hlaid⟩
      · rename_i hchild
        obtain ⟨rest, hrest, h⟩ := Option.bind_eq_some_iff.mp h
        cases h
        obtain ⟨hheads, hlaid⟩ := ih hrest
        exact ⟨by rw [StructureItems.heads, hheads], fun hc ↦ hchild ((hheaders item).mpr hc),
          hlaid⟩

theorem mem_childHeaders (hF : f.LoopForest loops) :
    c ∈ (loops.filter (·.parent = owner)).map (·.header) ↔ f.Child owner c := by
  rw [child_iff hF, List.mem_map]

/-- Where the region starts. -/
def StartsAt (f : KirFunction) (owner : Option BlockId) (entry : BlockId) : Prop :=
  owner = some entry ∨ (owner = none ∧ f.entryId? = some entry)

theorem buildRegion_eq_some (hR : f.ReachableSet reachable) (hF : f.LoopForest loops)
    {fuel depth : Nat} (howner : f.IsOwner owner) (hentry : f.StartsAt owner entry)
    (h : f.buildRegion reachable loops fuel owner depth entry = some items) :
    f.RegionSpec owner entry items ∧ f.LaidOut owner items := by
  induction fuel generalizing owner depth entry items with
  | zero => cases h
  | succ fuel ih =>
      rw [buildRegion] at h
      split at h
      · cases h
      · obtain ⟨scope, hscopeEq, hrest⟩ := Option.bind_eq_some_iff.mp h
        obtain ⟨scope', hscopeEq', hscope⟩ := regionScope_spec hR hF howner
        cases hscopeEq.symm.trans hscopeEq'
        obtain ⟨sorted, hsortedEq, hchecked⟩ := Option.bind_eq_some_iff.mp hrest
        obtain ⟨set, edges, sorted', hset, hsetIff, hedges, hsorted, horder⟩ :=
          regionOrder_spec hR hF hscope
        rw [horder] at hsortedEq
        split at hsortedEq
        · rename_i hlen
          cases hsortedEq
          have hall := (hsorted.length_eq hset).mp hlen
          obtain ⟨first, hfirst, hlay⟩ := Option.bind_eq_some_iff.mp hchecked
          split at hlay
          · rename_i hhead
            obtain rfl := repOf_first hentry ((representative_iff hF hscope).mp hfirst)
            obtain ⟨hheads, hlaid⟩ := layItems_eq_some (fun c ↦ mem_childHeaders hF)
              (fun c inner hc hinner ↦ ih (fun k hk ↦ by
                cases hk
                exact hc.isHeader) (Or.inl (Eq.refl _)) hinner) hlay
            refine ⟨⟨hheads ▸ hsorted.nodup, fun r ↦ ?_, ?_, hheads ▸ hhead⟩, hlaid⟩
            · rw [hheads, ← hsetIff r]
              exact ⟨hsorted.subset r, hall r⟩
            · rw [hheads]
              exact hsorted.ordered.imp fun hab hedge ↦ hab ((hedges _ _).mpr hedge)
          · cases hlay
        · cases hsortedEq

/-! ## The blocks of a region -/

theorem RegionSpec.covers (hregion : f.RegionSpec owner entry items) :
    (∃ r ∈ items.heads, (f.Child owner r ∧ x ∈ f.loopSet r) ∨ (¬ f.Child owner r ∧ x = r)) ↔
      x ∈ f.scopeSet owner := by
  constructor
  · rintro ⟨r, hr, ⟨hc, hx⟩ | ⟨_, rfl⟩⟩
    · exact hc.subset_scope hx
    · exact ((hregion.mem x).mp hr).1
  · intro hx
    by_cases hinside : ∃ c, f.Child owner c ∧ x ∈ f.loopSet c
    · obtain ⟨c, hc, hxc⟩ := hinside
      exact ⟨c, (hregion.mem c).mpr (hc.repOf hxc).self, Or.inl ⟨hc, hxc⟩⟩
    · push Not at hinside
      refine ⟨x, (hregion.mem x).mpr ⟨hx, Or.inr ⟨Eq.refl _, hinside⟩⟩, Or.inr ⟨?_, Eq.refl _⟩⟩
      exact fun hc ↦ hinside x hc hc.isHeader.mem_loopSet

/-- A block of the items is one of the items that are blocks, or inside a loop. -/
theorem LaidOut.mem_blocks (h : f.LaidOut owner items) :
    x ∈ items.blocks ↔ ∃ r ∈ items.heads,
      (f.Child owner r ∧ x ∈ f.loopSet r) ∨ (¬ f.Child owner r ∧ x = r) := by
  induction items generalizing owner with
  | nil => simp [StructureItems.blocks, StructureItems.heads]
  | block id rest ih =>
      rw [StructureItems.blocks, List.mem_cons, ih h.2]
      constructor
      · rintro (rfl | ⟨r, hr, hx⟩)
        · exact ⟨x, List.mem_cons_self, Or.inr ⟨h.1, Eq.refl _⟩⟩
        · exact ⟨r, List.mem_cons_of_mem _ hr, hx⟩
      · rintro ⟨r, hr, hx⟩
        rcases List.mem_cons.mp hr with rfl | hr
        · rcases hx with ⟨hc, _⟩ | ⟨_, rfl⟩
          · exact absurd hc h.1
          · exact Or.inl (Eq.refl _)
        · exact Or.inr ⟨r, hr, hx⟩
  | loop header body rest ihBody ihRest =>
      obtain ⟨hchild, hregion, hbody, hlaid⟩ := h
      have hinner : x ∈ body.blocks ↔ x ∈ f.loopSet header := (ihBody hbody).trans hregion.covers
      rw [StructureItems.blocks, List.mem_append, ihRest hlaid, hinner]
      constructor
      · rintro (hx | ⟨r, hr, hx⟩)
        · exact ⟨header, List.mem_cons_self, Or.inl ⟨hchild, hx⟩⟩
        · exact ⟨r, List.mem_cons_of_mem _ hr, hx⟩
      · rintro ⟨r, hr, hx⟩
        rcases List.mem_cons.mp hr with rfl | hr
        · rcases hx with ⟨_, hx⟩ | ⟨hc, _⟩
          · exact Or.inl hx
          · exact absurd hchild hc
        · exact Or.inr ⟨r, hr, hx⟩

/-- A region lays out the blocks of its scope. -/
theorem RegionSpec.mem_blocks (hregion : f.RegionSpec owner entry items)
    (h : f.LaidOut owner items) : x ∈ items.blocks ↔ x ∈ f.scopeSet owner :=
  h.mem_blocks.trans hregion.covers

/-- No block is laid out twice. -/
theorem LaidOut.nodup_blocks (h : f.LaidOut owner items) (hnodup : items.heads.Nodup)
    (hheads : ∀ r ∈ items.heads, f.RepOf owner r r) : items.blocks.Nodup := by
  induction items generalizing owner with
  | nil => exact List.nodup_nil
  | block id rest ih =>
      rw [StructureItems.heads, List.nodup_cons] at hnodup
      have hrest := ih h.2 hnodup.2 fun r hr ↦ hheads r (List.mem_cons_of_mem _ hr)
      rw [StructureItems.blocks, List.nodup_cons]
      refine ⟨fun hmem ↦ ?_, hrest⟩
      obtain ⟨r, hr, ⟨hc, hid⟩ | ⟨_, rfl⟩⟩ := h.2.mem_blocks.mp hmem
      · -- a block inside a loop of the region does not stand for itself
        have heq := (hc.repOf hid).unique (hheads id List.mem_cons_self)
        exact hnodup.1 (heq ▸ hr)
      · exact hnodup.1 hr
  | loop header body rest ihBody ihRest =>
      obtain ⟨hchild, hregion, hbody, hlaid⟩ := h
      rw [StructureItems.heads, List.nodup_cons] at hnodup
      have hrest := ihRest hlaid hnodup.2 fun r hr ↦ hheads r (List.mem_cons_of_mem _ hr)
      have hinner := ihBody hbody hregion.nodup fun r hr ↦ (hregion.mem r).mp hr
      rw [StructureItems.blocks]
      refine List.nodup_append.mpr ⟨hinner, hrest, fun x hx y hy hxy ↦ ?_⟩
      subst hxy
      have hxHeader : f.RepOf owner x header := hchild.repOf ((hregion.mem_blocks hbody).mp hx)
      obtain ⟨r, hr, ⟨hc, hxr⟩ | ⟨_, rfl⟩⟩ := hlaid.mem_blocks.mp hy
      · exact hnodup.1 (hxHeader.unique (hc.repOf hxr) ▸ hr)
      · exact hnodup.1 (hxHeader.unique (hheads x (List.mem_cons_of_mem _ hr)) ▸ hr)

theorem LaidOut.headersFirst (h : f.LaidOut owner items) : items.HeadersFirst := by
  induction items generalizing owner with
  | nil => exact trivial
  | block id rest ih => exact ih h.2
  | loop header body rest ihBody ihRest =>
      obtain ⟨_, hregion, hbody, hlaid⟩ := h
      refine ⟨?_, ihBody hbody, ihRest hlaid⟩
      have hfirst := hregion.first
      cases body with
      | nil => cases hfirst
      | block id rest =>
          cases hfirst
          exact ⟨rest, Eq.refl _⟩
      | loop inner body rest =>
          cases hfirst
          exact absurd hbody.1 Lib.not_childOf_self

end KirFunction

end CalcKernel
