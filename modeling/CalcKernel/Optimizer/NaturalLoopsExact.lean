import CalcKernel.Backend.Wasm.Loops
import CalcKernel.Lib.Reducible
import CalcKernel.Optimizer.IrreducibleBlocks

/-!
# The loops that are found

The analysis has a fixed price.  When no block is on a cycle of forward edges it finds the natural
loops, each with its latches, its blocks, the smallest loop around it and the number of loops it
lies in.
-/

namespace CalcKernel

open Lib Relation

namespace KirFunction

variable {f : KirFunction} {h x y : BlockId}

/-! ## The blocks of a loop -/

/-- The block that an edge leads back to. -/
def LeadsBack (f : KirFunction) (latch h : BlockId) : Prop :=
  f.flowGraph.edge latch h ∧ f.flowGraph.Dominates h latch

theorem backEdge_iff : (∃ b ∈ f.blocks, b.id = x ∧ h ∈ b.terminator.successors ∧
    f.computeKirDominators h x = true) ↔ f.LeadsBack x h := by
  rw [LeadsBack, edge_iff]
  constructor
  · rintro ⟨b, hb, rfl, hsuccessor, hdom⟩
    have hh := mem_blockIds_of_dominator hdom
    exact ⟨⟨⟨b, hb, rfl, hsuccessor⟩, hh⟩, (computed_iff hh (List.mem_map_of_mem hb)).mp hdom⟩
  · rintro ⟨⟨⟨b, hb, rfl, hsuccessor⟩, hh⟩, hdom⟩
    exact ⟨b, hb, rfl, hsuccessor, (computed_iff hh (List.mem_map_of_mem hb)).mpr hdom⟩

theorem mem_loopHeaders :
    h ∈ f.loopHeaders f.computeKirDominators ↔ ∃ latch, f.LeadsBack latch h := by
  simp only [loopHeaders, mem_sortedSet, List.mem_flatMap, List.mem_filter, ← backEdge_iff]
  constructor
  · rintro ⟨b, hb, hsuccessor, hdom⟩
    exact ⟨b.id, b, hb, rfl, hsuccessor, hdom⟩
  · rintro ⟨_, b, hb, rfl, hsuccessor, hdom⟩
    exact ⟨b, hb, hsuccessor, hdom⟩

theorem mem_loopLatches : x ∈ f.loopLatches f.computeKirDominators h ↔ f.LeadsBack x h := by
  simp only [loopLatches, mem_sortedSet, List.mem_map, List.mem_filter, decide_eq_true_eq,
    ← backEdge_iff]
  constructor
  · rintro ⟨b, ⟨hb, hsuccessor, hdom⟩, rfl⟩
    exact ⟨b, hb, rfl, hsuccessor, hdom⟩
  · rintro ⟨b, hb, rfl, hsuccessor, hdom⟩
    exact ⟨b, ⟨hb, hsuccessor, hdom⟩, rfl⟩

/-- What holds between two rounds of a loop body. -/
structure BodyInvariant (f : KirFunction) (h : BlockId) (s : Worklist) : Prop where
  sorted : s.seen.Pairwise (· < ·)
  header : h ∈ s.seen
  inLoop : ∀ x ∈ s.seen, f.flowGraph.InLoop h x
  inside : s.seen ⊆ f.blockIds
  work : s.work ⊆ s.seen
  latches : ∀ x, f.LeadsBack x h → x ∈ s.seen
  closed : ∀ x ∈ s.seen, x ≠ h → x ∈ s.work ∨ ∀ y, f.flowGraph.edge y x → y ∈ s.seen

theorem sorted_addLoopBlock {s : Worklist} (hs : s.seen.Pairwise (· < ·)) :
    (s.addLoopBlock h x).seen.Pairwise (· < ·) := by
  unfold Worklist.addLoopBlock
  split
  · exact hs
  · rename_i hx
    have hle := List.Pairwise.orderedInsert (r := (· ≤ ·)) x _ (hs.imp fun hlt ↦ Nat.le_of_lt hlt)
    have hnodup := nodup_orderedInsert (hs.imp fun hlt ↦ Nat.ne_of_lt hlt) hx
    exact (hle.and hnodup).imp fun hab ↦ Nat.lt_of_le_of_ne hab.1 hab.2

theorem sorted_addLoopBlocks {s : Worklist} (hs : s.seen.Pairwise (· < ·)) (added : List BlockId) :
    (added.foldl (Worklist.addLoopBlock h) s).seen.Pairwise (· < ·) := by
  induction added generalizing s with
  | nil => exact hs
  | cons x added ih => exact ih (sorted_addLoopBlock hs)

/-- The blocks from which a latch was not followed yet. -/
def bodyMeasure (f : KirFunction) (s : Worklist) : Nat :=
  s.work.length + (f.blockIds.length - s.seen.length)

theorem BodyInvariant.length_le {s : Worklist} (hs : BodyInvariant f h s) :
    s.seen.length ≤ f.blockIds.length :=
  (List.subperm_of_subset (hs.sorted.imp fun hlt ↦ Nat.ne_of_lt hlt) hs.inside).length_le

theorem mem_loopPredecessors (hx : x ∈ f.blockIds) :
    y ∈ f.loopPredecessors x ↔ f.flowGraph.edge y x := by
  rw [loopPredecessors, mem_sortedSet]
  exact ⟨fun hy ↦ ⟨hy, hx⟩, fun hy ↦ hy.1⟩

/-- The predecessors of a block join the loop. -/
theorem BodyInvariant.grow {seen work : List BlockId}
    (hs : BodyInvariant f h ⟨seen, x :: work⟩) (hxh : x ≠ h) :
    BodyInvariant f h ((f.loopPredecessors x).foldl (Worklist.addLoopBlock h) ⟨seen, work⟩) ∧
      bodyMeasure f ((f.loopPredecessors x).foldl (Worklist.addLoopBlock h) ⟨seen, work⟩) <
        bodyMeasure f ⟨seen, x :: work⟩ := by
  have hxSeen : x ∈ seen := hs.work List.mem_cons_self
  have hxMem : x ∈ f.blockIds := hs.inside hxSeen
  have hgrow := addLoopBlocks_grow h (f.loopPredecessors x) ⟨seen, work⟩
  have hsorted : (⟨seen, work⟩ : Worklist).seen.Pairwise (· < ·) := hs.sorted
  have hnew : BodyInvariant f h
      ((f.loopPredecessors x).foldl (Worklist.addLoopBlock h) ⟨seen, work⟩) := by
    refine ⟨sorted_addLoopBlocks hsorted _, hgrow.seen hs.header, fun y hy ↦ ?_, fun y hy ↦ ?_,
      fun y hy ↦ ?_, fun y hy ↦ hgrow.seen (hs.latches y hy), fun y hy hne ↦ ?_⟩
    · rcases hgrow.seenFrom y hy with hy | ⟨hy, -⟩
      · exact hs.inLoop y hy
      · exact (hs.inLoop x hxSeen).of_edge hxh ((mem_loopPredecessors hxMem).mp hy)
    · rcases hgrow.seenFrom y hy with hy | ⟨hy, -⟩
      · exact hs.inside hy
      · exact edge_source ((mem_loopPredecessors hxMem).mp hy)
    · rcases hgrow.workFrom y hy with hy | ⟨hy, -⟩
      · exact hgrow.seen (hs.work (List.mem_cons_of_mem _ hy))
      · exact hgrow.addedSeen hy
    · rcases hgrow.seenFrom y hy with hy | ⟨-, hwork⟩
      · rcases hs.closed y hy hne with hy | hy
        · rcases List.mem_cons.mp hy with rfl | hy
          · exact .inr fun z hz ↦ hgrow.addedSeen ((mem_loopPredecessors hxMem).mpr hz)
          · exact .inl (hgrow.work hy)
        · exact .inr fun z hz ↦ hgrow.seen (hy z hz)
      · exact .inl (hwork hne)
  have hlength := hgrow.length
  have hle := hnew.length_le
  refine ⟨hnew, ?_⟩
  simp only [bodyMeasure, List.length_cons] at hlength ⊢
  omega

theorem growLoopBody_costs {s : Worklist} (hs : BodyInvariant f h s)
    (hcond : (!s.work.isEmpty) = true) : ∃ units s', Costs (f.growLoopBody h s) units s' ∧
      1 ≤ units ∧ BodyInvariant f h s' ∧ bodyMeasure f s' < bodyMeasure f s := by
  obtain ⟨seen, work⟩ := s
  cases work with
  | nil => cases hcond
  | cons x work =>
      by_cases hxh : x = h
      · refine ⟨1 + 0, ⟨seen, work⟩, ?_, le_rfl, ?_, ?_⟩
        · unfold growLoopBody
          dsimp only
          rw [if_pos hxh]
          exact (Costs.spend 1).bind (Costs.pure _)
        · refine { hs with
            work := fun y hy ↦ hs.work (List.mem_cons_of_mem _ hy)
            closed := fun y hy hne ↦ ?_ }
          refine (hs.closed y hy hne).imp_left fun hy ↦ ?_
          exact (List.mem_cons.mp hy).resolve_left fun heq ↦ hne (heq.trans hxh)
        · exact Nat.add_lt_add_right (Nat.lt_succ_self _) _
      · obtain ⟨hnew, hless⟩ := hs.grow hxh
        have hstep : ∀ (s : Worklist) predecessor, Yields (do
            spend 1
            return s.addLoopBlock h predecessor) (s.addLoopBlock h predecessor) :=
          fun s predecessor ↦ Yields.spend_bind 1 (Yields.pure _)
        obtain ⟨units, hunits⟩ := Yields.foldlM hstep (f.loopPredecessors x) ⟨seen, work⟩
        refine ⟨1 + units, _, ?_, Nat.le_add_right _ _, hnew, hless⟩
        unfold growLoopBody
        dsimp only
        rw [if_neg hxh]
        exact (Costs.spend 1).bind hunits

theorem BodyInvariant.mem_iff {s : Worklist} (hs : BodyInvariant f h s) (hwork : s.work = []) :
    x ∈ s.seen ↔ f.flowGraph.InLoop h x := by
  refine ⟨hs.inLoop x, ?_⟩
  rintro (rfl | ⟨-, latch, hlatch, hdom, hpath⟩)
  · exact hs.header
  · -- from the latch back along the path
    unfold Lib.FlowGraph.Avoids at hpath
    induction hpath using ReflTransGen.head_induction_on with
    | refl => exact hs.latches latch ⟨hlatch, hdom⟩
    | @head a c hstep _ ih =>
        rcases hs.closed c ih hstep.2 with hmem | hclosed
        · rw [hwork] at hmem
          cases hmem
        · exact hclosed a hstep.1

/-- A loop that is found: its latches and its blocks are those of the natural loop. -/
structure IsNaturalLoop (f : KirFunction) (h : BlockId) (l : NaturalLoopInfo) : Prop where
  header : l.header = h
  latches : l.latches.Pairwise (· < ·) ∧ ∀ x, x ∈ l.latches ↔ f.LeadsBack x h
  blocks : l.blocks.Pairwise (· < ·) ∧ ∀ x, x ∈ l.blocks ↔ f.flowGraph.InLoop h x

theorem naturalLoop_yields (hh : ∃ latch, f.LeadsBack latch h) :
    ∃ l, Yields (f.naturalLoop f.computeKirDominators h) l ∧ f.IsNaturalLoop h l := by
  have hstart : BodyInvariant f h ⟨sortedSet (h :: f.loopLatches f.computeKirDominators h),
      (f.loopLatches f.computeKirDominators h).reverse⟩ := by
    have hmem : ∀ x, x ∈ sortedSet (h :: f.loopLatches f.computeKirDominators h) ↔
        x = h ∨ f.LeadsBack x h := by
      intro x
      rw [mem_sortedSet, List.mem_cons, mem_loopLatches]
    refine ⟨sortedSet_pairwise _, (hmem h).mpr (.inl rfl), fun x hx ↦ ?_, fun x hx ↦ ?_,
      fun x hx ↦ ?_, fun x hx ↦ (hmem x).mpr (.inr hx), fun x hx hne ↦ ?_⟩
    · by_cases hxh : x = h
      · exact .inl hxh
      · obtain ⟨hedge, hdom⟩ := ((hmem x).mp hx).resolve_left hxh
        exact .inr ⟨hxh, x, hedge, hdom, .refl⟩
    · rcases (hmem x).mp hx with rfl | hx
      · obtain ⟨latch, hedge, -⟩ := hh
        exact hedge.2
      · exact edge_source hx.1
    · exact (hmem x).mpr (.inr (mem_loopLatches.mp (List.mem_reverse.mp hx)))
    · exact .inl (List.mem_reverse.mpr (mem_loopLatches.mpr (((hmem x).mp hx).resolve_left hne)))
  obtain ⟨s, hs, hinv, hdone⟩ := payWhile_yields (bodyMeasure f)
    (fun _ hs hcond ↦ growLoopBody_costs hs hcond) hstart
  have hwork : s.work = [] := by simpa using hdone
  exact ⟨_, hs.bind (Yields.pure _), rfl, ⟨sortedSet_pairwise _, fun x ↦ mem_loopLatches⟩,
    hinv.sorted, fun x ↦ hinv.mem_iff hwork⟩

end KirFunction

/-! ## Parents -/

namespace NaturalLoopInfo

variable {child : NaturalLoopInfo} {parent : Option (NaturalLoopInfo × Nat)}
  {candidates : List (NaturalLoopInfo × Nat)}

/-- A larger loop with all blocks of the child. -/
def Encloses (child candidate : NaturalLoopInfo) : Prop :=
  child.blocks.length < candidate.blocks.length ∧ child.blocks ⊆ candidate.blocks

/-- The choice of a parent without its price. -/
def chooseParent (child : NaturalLoopInfo) (parent : Option (NaturalLoopInfo × Nat))
    (candidate : NaturalLoopInfo × Nat) : Option (NaturalLoopInfo × Nat) :=
  if candidate.1.blocks.length ≤ child.blocks.length then parent
  else if child.blocks.all (candidate.1.blocks.contains ·) &&
      parent.all fun p ↦ candidate.1.blocks.length < p.1.blocks.length then some candidate
    else parent

theorem parentStep_yields (child : NaturalLoopInfo) (parent : Option (NaturalLoopInfo × Nat))
    (candidate : NaturalLoopInfo × Nat) :
    Yields (parentStep child parent candidate) (child.chooseParent parent candidate) := by
  refine Yields.spend_bind 1 ?_
  unfold chooseParent
  split
  · exact Yields.pure parent
  · exact Yields.spend_bind _ (Yields.pure _)

/-- The smallest of the candidates that enclose the child, if there is one. -/
structure Smallest (child : NaturalLoopInfo) (candidates : List (NaturalLoopInfo × Nat))
    (parent : Option (NaturalLoopInfo × Nat)) : Prop where
  none : parent = none → ∀ c ∈ candidates, ¬ child.Encloses c.1
  some : ∀ p ∈ parent, p ∈ candidates ∧ child.Encloses p.1 ∧
    ∀ c ∈ candidates, child.Encloses c.1 → p.1.blocks.length ≤ c.1.blocks.length

theorem all_contains_iff {candidate : NaturalLoopInfo} :
    child.blocks.all (candidate.blocks.contains ·) = true ↔ child.blocks ⊆ candidate.blocks := by
  rw [List.all_eq_true]
  exact forall₂_congr fun x _ ↦ List.contains_iff_mem

theorem Smallest.choose (h : child.Smallest candidates parent) (c : NaturalLoopInfo × Nat) :
    child.Smallest (candidates ++ [c]) (child.chooseParent parent c) := by
  have hkeep (hnot : child.Encloses c.1 →
      ∃ p ∈ parent, p.1.blocks.length ≤ c.1.blocks.length) :
      child.Smallest (candidates ++ [c]) parent := by
    refine ⟨fun hnone d hd ↦ ?_, fun p hp ↦ ?_⟩
    · rcases List.mem_append.mp hd with hd | hd
      · exact h.none hnone d hd
      · rw [List.mem_singleton.mp hd]
        intro hencloses
        obtain ⟨p, hp, -⟩ := hnot hencloses
        rw [hnone] at hp
        cases hp
    · obtain ⟨hmem, hencloses, hleast⟩ := h.some p hp
      refine ⟨List.mem_append_left _ hmem, hencloses, fun d hd henclosed ↦ ?_⟩
      rcases List.mem_append.mp hd with hd | hd
      · exact hleast d hd henclosed
      · rw [List.mem_singleton.mp hd] at henclosed ⊢
        obtain ⟨q, hq, hle⟩ := hnot henclosed
        cases Option.mem_unique hp hq
        exact hle
  unfold chooseParent
  by_cases hsize : c.1.blocks.length ≤ child.blocks.length
  · rw [if_pos hsize]
    exact hkeep fun hencloses ↦ absurd hsize (Nat.not_le_of_lt hencloses.1)
  · rw [if_neg hsize]
    by_cases hall : child.blocks.all (c.1.blocks.contains ·) = true
    · by_cases hless : (parent.all fun p ↦ c.1.blocks.length < p.1.blocks.length) = true
      · rw [if_pos (by rw [hall, hless]; rfl)]
        refine ⟨fun hnone ↦ ?_, fun p hp ↦ ?_⟩
        · cases hnone
        · obtain rfl := Option.some.inj hp
          refine ⟨List.mem_append_right _ (List.mem_singleton_self _),
            ⟨Nat.lt_of_not_le hsize, all_contains_iff.mp hall⟩, fun d hd henclosed ↦ ?_⟩
          rcases List.mem_append.mp hd with hd | hd
          · cases parent with
            | none => exact absurd henclosed (h.none rfl d hd)
            | some p =>
                have hlt : c.1.blocks.length < p.1.blocks.length := by simpa using hless
                exact hlt.le.trans ((h.some p rfl).2.2 d hd henclosed)
          · rw [List.mem_singleton.mp hd]
      · rw [if_neg (by rw [hall, Bool.true_and]; exact hless)]
        refine hkeep fun _ ↦ ?_
        cases parent with
        | none => exact absurd rfl hless
        | some p =>
            have hle : ¬ c.1.blocks.length < p.1.blocks.length := by simpa using hless
            exact ⟨p, rfl, Nat.le_of_not_lt hle⟩
    · rw [Bool.not_eq_true] at hall
      rw [if_neg (by rw [hall]; exact Bool.false_ne_true)]
      refine hkeep fun hencloses ↦ ?_
      rw [all_contains_iff.mpr hencloses.2] at hall
      cases hall

theorem Smallest.chooseAll (h : child.Smallest candidates parent)
    (rest : List (NaturalLoopInfo × Nat)) :
    child.Smallest (candidates ++ rest) (rest.foldl child.chooseParent parent) := by
  induction rest generalizing candidates parent with
  | nil => rwa [List.append_nil]
  | cons c rest ih =>
      have hrest := ih (h.choose c)
      rwa [List.append_assoc] at hrest

/-- A loop with the index of its parent. -/
def withParent (loops : List NaturalLoopInfo) (child : NaturalLoopInfo) : NaturalLoopInfo :=
  { child with parent := (loops.zipIdx.foldl child.chooseParent none).map (·.2) }

theorem attachParents_yields (loops : List NaturalLoopInfo) :
    Yields (attachParents loops) (loops.map (withParent loops)) :=
  Yields.mapM_eq fun child _ ↦
    (Yields.foldlM (parentStep_yields child) loops.zipIdx none).bind (Yields.pure _)

end NaturalLoopInfo

/-- The parent of each loop is the smallest loop that encloses it. -/
def ParentsSmallest (loops : List NaturalLoopInfo) : Prop :=
  ∀ l ∈ loops, (l.parent = none → ∀ k ∈ loops, ¬ l.Encloses k) ∧ ∀ i ∈ l.parent, ∃ p,
    loops[i]? = some p ∧ l.Encloses p ∧
      ∀ k ∈ loops, l.Encloses k → p.blocks.length ≤ k.blocks.length

theorem parentsSmallest_withParent (loops : List NaturalLoopInfo) :
    ParentsSmallest (loops.map (NaturalLoopInfo.withParent loops)) := by
  intro l hl
  obtain ⟨child, -, rfl⟩ := List.mem_map.mp hl
  have hstart : child.Smallest [] none := ⟨fun _ _ hc ↦ absurd hc List.not_mem_nil,
    fun p hp ↦ absurd hp (Option.not_mem_none p)⟩
  have hsmallest := hstart.chooseAll loops.zipIdx
  rw [List.nil_append] at hsmallest
  refine ⟨fun hnone k hk hencloses ↦ ?_, fun i hi ↦ ?_⟩
  · obtain ⟨c, hc, rfl⟩ := List.mem_map.mp hk
    obtain ⟨j, hj⟩ := List.getElem?_of_mem hc
    exact hsmallest.none (Option.map_eq_none_iff.mp hnone) (c, j)
      (List.mk_mem_zipIdx_iff_getElem?.mpr hj) hencloses
  · obtain ⟨⟨p, j⟩, hp, rfl⟩ := Option.map_eq_some_iff.mp hi
    obtain ⟨hmem, hencloses, hleast⟩ := hsmallest.some (p, j) hp
    refine ⟨NaturalLoopInfo.withParent loops p, ?_, hencloses, fun k hk henclosed ↦ ?_⟩
    · rw [List.getElem?_map, List.mk_mem_zipIdx_iff_getElem?.mp hmem]
      rfl
    · obtain ⟨c, hc, rfl⟩ := List.mem_map.mp hk
      obtain ⟨j', hj'⟩ := List.getElem?_of_mem hc
      exact hleast (c, j') (List.mk_mem_zipIdx_iff_getElem?.mpr hj') henclosed

theorem ParentsSmallest.map {loops : List NaturalLoopInfo} (h : ParentsSmallest loops)
    (g : NaturalLoopInfo → NaturalLoopInfo) (hparent : ∀ l, (g l).parent = l.parent)
    (hblocks : ∀ l, (g l).blocks = l.blocks) : ParentsSmallest (loops.map g) := by
  have hiff : ∀ l k, (g l).Encloses (g k) ↔ l.Encloses k := by
    intro l k
    rw [NaturalLoopInfo.Encloses, NaturalLoopInfo.Encloses, hblocks, hblocks]
  intro l hl
  obtain ⟨child, hchild, rfl⟩ := List.mem_map.mp hl
  obtain ⟨hnone, hsome⟩ := h child hchild
  rw [hparent]
  refine ⟨fun hchildNone k hk hencloses ↦ ?_, fun i hi ↦ ?_⟩
  · obtain ⟨c, hc, rfl⟩ := List.mem_map.mp hk
    exact hnone hchildNone c hc ((hiff child c).mp hencloses)
  · obtain ⟨p, hp, hencloses, hleast⟩ := hsome i hi
    refine ⟨g p, ?_, (hiff child p).mpr hencloses, fun k hk henclosed ↦ ?_⟩
    · rw [List.getElem?_map, hp]
      rfl
    · obtain ⟨c, hc, rfl⟩ := List.mem_map.mp hk
      rw [hblocks, hblocks]
      exact hleast c hc ((hiff child c).mp henclosed)

/-! ## Depths -/

/-- The natural loops by their headers in order. -/
structure KirFunction.FoundLoops (f : KirFunction) (loops : List NaturalLoopInfo) : Prop where
  sorted : (loops.map (·.header)).Pairwise (· < ·)
  header : ∀ h, h ∈ loops.map (·.header) ↔ ∃ latch, f.LeadsBack latch h
  loop : ∀ l ∈ loops, f.IsNaturalLoop l.header l

/-- The loops that a block lies in. -/
def loopCount (loops : List NaturalLoopInfo) (x : BlockId) : Nat :=
  (loops.filter (x ∈ ·.blocks)).length

theorem loopCount_map {loops : List NaturalLoopInfo} {x : BlockId}
    (g : NaturalLoopInfo → NaturalLoopInfo) (hblocks : ∀ l, (g l).blocks = l.blocks) :
    loopCount (loops.map g) x = loopCount loops x := by
  unfold loopCount
  rw [List.filter_map, List.length_map]
  refine congrArg List.length (List.filter_congr fun l _ ↦ ?_)
  dsimp only [Function.comp_apply]
  rw [hblocks]

namespace KirFunction.FoundLoops

variable {f : KirFunction} {loops : List NaturalLoopInfo} {l k p : NaturalLoopInfo}

/-- Changes that keep the headers, the latches and the blocks. -/
theorem map (h : f.FoundLoops loops) (g : NaturalLoopInfo → NaturalLoopInfo)
    (hheader : ∀ l, (g l).header = l.header) (hlatches : ∀ l, (g l).latches = l.latches)
    (hblocks : ∀ l, (g l).blocks = l.blocks) : f.FoundLoops (loops.map g) := by
  have hheaders : (loops.map g).map (·.header) = loops.map (·.header) := by
    rw [List.map_map]
    exact List.map_congr_left fun l _ ↦ hheader l
  refine ⟨hheaders ▸ h.sorted, fun x ↦ hheaders ▸ h.header x, fun l hl ↦ ?_⟩
  obtain ⟨k, hk, rfl⟩ := List.mem_map.mp hl
  obtain ⟨-, hk₁, hk₂⟩ := h.loop k hk
  rw [hheader]
  exact ⟨hheader k, (hlatches k).symm ▸ hk₁, (hblocks k).symm ▸ hk₂⟩

theorem eq_of_header (h : f.FoundLoops loops) (hl : l ∈ loops) (hk : k ∈ loops)
    (heq : l.header = k.header) : l = k :=
  List.inj_on_of_nodup_map (h.sorted.imp fun hlt ↦ Nat.ne_of_lt hlt) hl hk heq

theorem nodup (h : f.FoundLoops loops) : loops.Nodup :=
  List.Nodup.of_map _ (h.sorted.imp fun hlt ↦ Nat.ne_of_lt hlt)

theorem mem_blocks (h : f.FoundLoops loops) (hl : l ∈ loops) {x : BlockId} :
    x ∈ l.blocks ↔ f.flowGraph.InLoop l.header x :=
  (h.loop l hl).blocks.2 x

theorem header_mem (h : f.FoundLoops loops) (hl : l ∈ loops) : l.header ∈ l.blocks :=
  (h.mem_blocks hl).mpr (.inl rfl)

/-- Of two loops that share a reached block one encloses the other, unless they are the same. -/
theorem encloses_or (h : f.FoundLoops loops) (hl : l ∈ loops) (hk : k ∈ loops) (hne : l ≠ k)
    {x : BlockId} (hx : f.flowGraph.Reachable x) (hxl : x ∈ l.blocks) (hxk : x ∈ k.blocks) :
    (l.Encloses k ∧ k.header ∉ l.blocks) ∨ (k.Encloses l ∧ l.header ∉ k.blocks) := by
  have hless : ∀ {a b : NaturalLoopInfo}, a ∈ loops → b ∈ loops → a.blocks ⊆ b.blocks →
      b.header ∉ a.blocks → a.Encloses b := by
    intro a b ha hb hsub hnot
    have hnodup : (b.header :: a.blocks).Nodup := List.nodup_cons.mpr
      ⟨hnot, (h.loop a ha).blocks.1.imp fun hlt ↦ Nat.ne_of_lt hlt⟩
    exact ⟨(List.subperm_of_subset hnodup
      (List.cons_subset.mpr ⟨h.header_mem hb, hsub⟩)).length_le, hsub⟩
  have hheaders : k.header ≠ l.header := fun heq ↦ hne (h.eq_of_header hl hk heq.symm)
  rcases Lib.FlowGraph.InLoop.nested_or_nested hheaders hx ((h.mem_blocks hk).mp hxk)
    ((h.mem_blocks hl).mp hxl) with ⟨hsub, hnot⟩ | ⟨hsub, hnot⟩
  · have hnot' : k.header ∉ l.blocks := fun hmem ↦ hnot ((h.mem_blocks hl).mp hmem)
    exact .inl ⟨hless hl hk (fun y hy ↦ (h.mem_blocks hk).mpr (hsub y ((h.mem_blocks hl).mp hy)))
      hnot', hnot'⟩
  · have hnot' : l.header ∉ k.blocks := fun hmem ↦ hnot ((h.mem_blocks hk).mp hmem)
    exact .inr ⟨hless hk hl (fun y hy ↦ (h.mem_blocks hl).mpr (hsub y ((h.mem_blocks hk).mp hy)))
      hnot', hnot'⟩

/-- A loop that the header of a reached loop lies in is that loop or encloses it. -/
theorem encloses_of_mem (h : f.FoundLoops loops) (hl : l ∈ loops) (hk : k ∈ loops)
    (hreach : f.flowGraph.Reachable l.header) (hmem : l.header ∈ k.blocks) :
    k = l ∨ l.Encloses k ∧ k.header ∉ l.blocks := by
  by_cases hne : l = k
  · exact .inl hne.symm
  · rcases h.encloses_or hl hk hne hreach (h.header_mem hl) hmem with hencloses | ⟨-, hnot⟩
    · exact .inr hencloses
    · exact absurd hmem hnot

/-- The header of a loop around a reached loop is reached. -/
theorem reachable_of_mem (h : f.FoundLoops loops) (hk : k ∈ loops)
    (hreach : f.flowGraph.Reachable l.header) (hmem : l.header ∈ k.blocks) :
    f.flowGraph.Reachable k.header := by
  obtain ⟨r, hroot, hpath⟩ := hreach
  exact ⟨r, hroot, (((h.mem_blocks hk).mp hmem).dominates.split hroot hpath).1⟩

/-- A loop that none encloses is the only one its header lies in. -/
theorem loopCount_outermost (h : f.FoundLoops loops) (hl : l ∈ loops)
    (hreach : f.flowGraph.Reachable l.header) (hnone : ∀ k ∈ loops, ¬ l.Encloses k) :
    loopCount loops l.header = 1 := by
  have hperm : (loops.filter (l.header ∈ ·.blocks)).Perm [l] := by
    refine (List.perm_ext_iff_of_nodup (h.nodup.filter _) (List.nodup_singleton l)).mpr fun k ↦ ?_
    rw [List.mem_filter, decide_eq_true_eq, List.mem_singleton]
    constructor
    · rintro ⟨hk, hmem⟩
      exact (h.encloses_of_mem hl hk hreach hmem).resolve_right fun hencloses ↦
        hnone k hk hencloses.1
    · rintro rfl
      exact ⟨hl, h.header_mem hl⟩
  exact hperm.length_eq

/-- A loop lies in one loop more than the smallest loop around it. -/
theorem loopCount_parent (h : f.FoundLoops loops) (hl : l ∈ loops) (hp : p ∈ loops)
    (hreach : f.flowGraph.Reachable l.header) (hencloses : l.Encloses p)
    (hleast : ∀ k ∈ loops, l.Encloses k → p.blocks.length ≤ k.blocks.length) :
    loopCount loops l.header = loopCount loops p.header + 1 := by
  have hlp : l.header ∈ p.blocks := hencloses.2 (h.header_mem hl)
  have hreachP := h.reachable_of_mem hp hreach hlp
  have hpl : p.header ∉ l.blocks := by
    intro hmem
    rcases h.encloses_of_mem hp hl hreachP hmem with rfl | hsmaller
    · exact Nat.lt_irrefl _ hencloses.1
    · exact Nat.lt_asymm hencloses.1 hsmaller.1.1
  have hperm : (loops.filter (l.header ∈ ·.blocks)).Perm
      (l :: loops.filter (p.header ∈ ·.blocks)) := by
    refine (List.perm_ext_iff_of_nodup (h.nodup.filter _) (List.nodup_cons.mpr
      ⟨fun hmem ↦ hpl (by simpa using (List.mem_filter.mp hmem).2), h.nodup.filter _⟩)).mpr
      fun k ↦ ?_
    rw [List.mem_filter, List.mem_cons, List.mem_filter, decide_eq_true_eq, decide_eq_true_eq]
    constructor
    · rintro ⟨hk, hmem⟩
      rcases h.encloses_of_mem hl hk hreach hmem with rfl | ⟨henclosed, -⟩
      · exact .inl rfl
      · refine .inr ⟨hk, ?_⟩
        by_cases hpk : p = k
        · exact hpk ▸ h.header_mem hp
        · rcases h.encloses_or hp hk hpk hreach hlp hmem with ⟨hsub, -⟩ | ⟨hsmaller, -⟩
          · exact hsub.2 (h.header_mem hp)
          · exact absurd hsmaller.1 (Nat.not_lt_of_le (hleast k hk henclosed))
    · rintro (rfl | ⟨hk, hmem⟩)
      · exact ⟨hl, h.header_mem hl⟩
      · refine ⟨hk, ?_⟩
        rcases h.encloses_of_mem hp hk hreachP hmem with rfl | ⟨henclosed, -⟩
        · exact hlp
        · exact henclosed.2 hlp
  exact hperm.length_eq

end KirFunction.FoundLoops

theorem exists_length_bound (loops : List NaturalLoopInfo) :
    ∃ n, ∀ l ∈ loops, l.blocks.length ≤ n := by
  induction loops with
  | nil => exact ⟨0, by simp⟩
  | cons l loops ih =>
      obtain ⟨n, hn⟩ := ih
      refine ⟨max l.blocks.length n, fun k hk ↦ ?_⟩
      rcases List.mem_cons.mp hk with rfl | hk
      · exact Nat.le_max_left _ _
      · exact (hn k hk).trans (Nat.le_max_right _ _)

/-- The depth counted so far, with the loops that the one to come lies in. -/
structure DepthInvariant (f : KirFunction) (loops : List NaturalLoopInfo) (child : NaturalLoopInfo)
    (s : Nat × Option Nat) : Prop where
  parent : ∀ i ∈ s.2, ∃ p, loops[i]? = some p ∧ (f.flowGraph.Reachable child.header →
    f.flowGraph.Reachable p.header ∧
      s.1 + loopCount loops p.header = loopCount loops child.header)
  done : s.2 = none → f.flowGraph.Reachable child.header →
    s.1 = loopCount loops child.header

/-- From a loop to its parent. -/
theorem DepthInvariant.of_parent {f : KirFunction} {loops : List NaturalLoopInfo}
    {child l : NaturalLoopInfo} {depth : Nat} (h : f.FoundLoops loops)
    (hparents : ParentsSmallest loops) (hl : l ∈ loops)
    (hcount : f.flowGraph.Reachable child.header → f.flowGraph.Reachable l.header ∧
      depth + loopCount loops l.header = loopCount loops child.header) :
    DepthInvariant f loops child (depth + 1, l.parent) := by
  obtain ⟨hnone, hsome⟩ := hparents l hl
  refine ⟨fun i hi ↦ ?_, fun hi hchild ↦ ?_⟩
  · obtain ⟨p, hp, hencloses, hleast⟩ := hsome i hi
    refine ⟨p, hp, fun hchild ↦ ?_⟩
    obtain ⟨hreach, hcount⟩ := hcount hchild
    have hpMem := List.mem_of_getElem? hp
    have hone := h.loopCount_parent hl hpMem hreach hencloses hleast
    refine ⟨h.reachable_of_mem hpMem hreach (hencloses.2 (h.header_mem hl)), ?_⟩
    dsimp only
    omega
  · obtain ⟨hreach, hcount⟩ := hcount hchild
    have hone := h.loopCount_outermost hl hreach (hnone hi)
    dsimp only
    omega

/-- How much larger than the parent to come a loop can be. -/
def depthMeasure (loops : List NaturalLoopInfo) (n : Nat) (s : Nat × Option Nat) : Nat :=
  (s.2.map fun i ↦ n + 1 - ((loops[i]?.map (·.blocks.length)).getD 0)).getD 0

/-- The depth of a reached loop is the number of loops its header lies in. -/
theorem loopDepth_yields {f : KirFunction} {loops : List NaturalLoopInfo} {child : NaturalLoopInfo}
    (h : f.FoundLoops loops) (hparents : ParentsSmallest loops) (hchild : child ∈ loops) :
    ∃ depth, Yields (loopDepth loops child) depth ∧
      (f.flowGraph.Reachable child.header → depth = loopCount loops child.header) := by
  obtain ⟨n, hn⟩ := exists_length_bound loops
  have hbody : ∀ s : Nat × Option Nat, DepthInvariant f loops child s → s.2.isSome = true →
      ∃ units s', Costs (do
        spend 1
        return (s.1 + 1, s.2.bind fun p ↦ loops[p]?.bind (·.parent))) units s' ∧ 1 ≤ units ∧
        DepthInvariant f loops child s' ∧ depthMeasure loops n s' < depthMeasure loops n s := by
    intro s hs hcond
    obtain ⟨depth, parent⟩ := s
    obtain ⟨i, rfl⟩ := Option.isSome_iff_exists.mp hcond
    obtain ⟨l, hl, hcount⟩ := hs.parent i rfl
    have hlMem := List.mem_of_getElem? hl
    refine ⟨1 + 0, (depth + 1, l.parent), ?_, le_rfl, .of_parent h hparents hlMem hcount, ?_⟩
    · have hnext : (some i).bind (fun p ↦ loops[p]?.bind (·.parent)) = l.parent := by
        rw [Option.bind_some, hl, Option.bind_some]
      dsimp only
      rw [hnext]
      exact (Costs.spend 1).bind (Costs.pure _)
    · have hle := hn l hlMem
      cases hparent : l.parent with
      | none =>
          simp only [depthMeasure, Option.map_none, Option.getD_none, Option.map_some, hl,
            Option.getD_some]
          omega
      | some j =>
          obtain ⟨p, hp, hencloses, -⟩ := (hparents l hlMem).2 j hparent
          have hle' := hn p (List.mem_of_getElem? hp)
          have hlt := hencloses.1
          simp only [depthMeasure, Option.map_some, hl, hp, Option.getD_some]
          omega
  have hstart : DepthInvariant f loops child (0 + 1, child.parent) :=
    .of_parent h hparents hchild fun hreach ↦ ⟨hreach, Nat.zero_add _⟩
  obtain ⟨s, hs, hinv, hdone⟩ := payWhile_yields (depthMeasure loops n) hbody hstart
  refine ⟨s.1, hs.bind (Yields.pure _), hinv.done ?_⟩
  simpa using hdone

/-! ## The analysis -/

/-- What the analysis says of a function: which blocks lie on cycles of forward edges, that there
are none just when every cycle has a block that dominates all of it, and the natural loops, which
then take in every cycle. -/
structure NaturalLoopAnalysis.Exact (f : KirFunction) (analysis : NaturalLoopAnalysis) : Prop where
  irreducible : ∀ x, x ∈ analysis.irreducibleBlocks ↔ TransGen f.flowGraph.Forward x x
  reducible : analysis.irreducibleBlocks = [] ↔ ∀ S : BlockId → Prop, (∃ x, S x) →
    (∀ x, S x → x ∈ f.blockIds) → f.flowGraph.Connected S →
      ∃ h, S h ∧ ∀ x, S x → f.flowGraph.Dominates h x
  unanalyzed : analysis.irreducibleBlocks ≠ [] → analysis.loops = []
  found : analysis.irreducibleBlocks = [] → f.FoundLoops analysis.loops
  parents : ParentsSmallest analysis.loops
  depth : ∀ l ∈ analysis.loops, f.flowGraph.Reachable l.header →
    l.depth = loopCount analysis.loops l.header
  covered : analysis.irreducibleBlocks = [] → ∀ S : BlockId → Prop, (∃ x, S x) →
    (∀ x, S x → x ∈ f.blockIds) → f.flowGraph.Connected S →
      ∃ l ∈ analysis.loops, S l.header ∧ ∀ x, S x → x ∈ l.blocks

namespace KirFunction

variable {f : KirFunction}

/-- Where no cycle is of forward edges, a connected set of blocks lies in the loop of one. -/
theorem exists_loop (hacyclic : ∀ x, ¬ TransGen f.flowGraph.Forward x x) {S : BlockId → Prop}
    (hne : ∃ x, S x) (hinside : ∀ x, S x → x ∈ f.blockIds) (hS : f.flowGraph.Connected S) :
    ∃ h, S h ∧ (∃ latch, f.LeadsBack latch h) ∧ ∀ x, S x → f.flowGraph.InLoop h x := by
  have hfinite : Finite {x // S x} := Finite.of_injective
    (fun x : {x // S x} ↦ (⟨x.1, hinside x.1 x.2⟩ : {x // x ∈ f.blockIds}))
    fun a b hab ↦ Subtype.ext (Subtype.mk.inj hab)
  obtain ⟨h, hh, ⟨latch, -, hlatch⟩, hloop⟩ := hS.exists_header hne fun x _ ↦ hacyclic x
  exact ⟨h, hh, ⟨latch, hlatch⟩, hloop⟩

theorem reducible_iff : (∀ x, ¬ TransGen f.flowGraph.Forward x x) ↔
    ∀ S : BlockId → Prop, (∃ x, S x) → (∀ x, S x → x ∈ f.blockIds) → f.flowGraph.Connected S →
      ∃ h, S h ∧ ∀ x, S x → f.flowGraph.Dominates h x := by
  constructor
  · intro hacyclic S hne hinside hS
    obtain ⟨h, hh, -, hloop⟩ := exists_loop hacyclic hne hinside hS
    exact ⟨h, hh, fun x hx ↦ (hloop x hx).dominates⟩
  · intro hheaders x hcycle
    obtain ⟨S, hx, hconnected, hreach, hnone⟩ := Lib.FlowGraph.connected_of_cycle hcycle
    refine hnone (hheaders S ⟨x, hx⟩ (fun y hy ↦ ?_) hconnected)
    rcases ReflTransGen.cases_tail (hreach y hy) with rfl | ⟨z, -, hzy⟩
    · obtain ⟨z, -, hzx⟩ := TransGen.tail'_iff.mp hcycle
      exact hzx.1.2
    · exact hzy.1.2

theorem foundLoops_of_headers {loops : List NaturalLoopInfo}
    (hall : List.Forall₂ f.IsNaturalLoop (f.loopHeaders f.computeKirDominators) loops) :
    f.FoundLoops loops := by
  have hheaders : loops.map (·.header) = f.loopHeaders f.computeKirDominators := by
    have hkeys := hall.imp fun _ _ hloop ↦ hloop.header
    rw [← List.forall₂_eq_eq_eq, List.forall₂_map_left_iff]
    exact hkeys.flip
  refine ⟨?_, fun h ↦ ?_, fun l hl ↦ ?_⟩
  · rw [hheaders]
    exact sortedSet_pairwise _
  · rw [hheaders]
    exact mem_loopHeaders
  · obtain ⟨h, -, hloop⟩ := Lib.forall₂_mem_right hall hl
    rw [hloop.header]
    exact hloop

theorem computeDominators_yields (f : KirFunction) :
    Yields (f.computeDominators spendUnits : Budgeted Dominators) f.computeKirDominators :=
  ⟨f.dominatorUnits, fun _ hmax ↦ computeDominators_spendUnits hmax⟩

/-- The loops with their depths. -/
theorem depths_yield {loops : List NaturalLoopInfo} (h : f.FoundLoops loops)
    (hparents : ParentsSmallest loops) : ∃ depths : NaturalLoopInfo → Nat,
      Yields (loops.mapM fun child ↦ do
        let depth ← loopDepth loops child
        return { child with depth := depth })
        (loops.map fun child ↦ { child with depth := depths child }) ∧
      ∀ l ∈ loops, f.flowGraph.Reachable l.header → depths l = loopCount loops l.header := by
  have hdepth : ∀ child, ∃ depth, child ∈ loops → Yields (loopDepth loops child) depth ∧
      (f.flowGraph.Reachable child.header → depth = loopCount loops child.header) := by
    intro child
    by_cases hchild : child ∈ loops
    · obtain ⟨depth, hdepth⟩ := loopDepth_yields h hparents hchild
      exact ⟨depth, fun _ ↦ hdepth⟩
    · exact ⟨0, fun hmem ↦ absurd hmem hchild⟩
  choose depths hdepths using hdepth
  exact ⟨depths, Yields.mapM_eq fun child hchild ↦ (hdepths child hchild).1.bind (Yields.pure _),
    fun l hl ↦ (hdepths l hl).2⟩

/-- The loops with their parents and depths. -/
theorem loops_yield (f : KirFunction) : ∃ loops, Yields (do
      f.spendBlocks
      let loops ← (f.loopHeaders f.computeKirDominators).mapM
        (f.naturalLoop f.computeKirDominators)
      let loops ← attachParents loops
      let loops ← loops.mapM fun child ↦ do
        let depth ← loopDepth loops child
        return { child with depth := depth }
      return (⟨loops, []⟩ : NaturalLoopAnalysis)) ⟨loops, []⟩ ∧ f.FoundLoops loops ∧
    ParentsSmallest loops ∧ ∀ l ∈ loops, f.flowGraph.Reachable l.header →
      l.depth = loopCount loops l.header := by
  obtain ⟨loops, hloops, hall⟩ := Yields.mapM fun h (hh : h ∈ f.loopHeaders _) ↦
    naturalLoop_yields (mem_loopHeaders.mp hh)
  have hfound := (foundLoops_of_headers hall).map (NaturalLoopInfo.withParent loops)
    (fun _ ↦ rfl) (fun _ ↦ rfl) fun _ ↦ rfl
  have hparents := parentsSmallest_withParent loops
  have hattached := NaturalLoopInfo.attachParents_yields loops
  generalize loops.map (NaturalLoopInfo.withParent loops) = attached at hfound hparents hattached
  obtain ⟨depths, hyields, hdepths⟩ := depths_yield hfound hparents
  refine ⟨_, (spendBlocks_yields f).bind (hloops.bind (hattached.bind
      (hyields.bind (Yields.pure _)))),
    hfound.map _ (fun _ ↦ rfl) (fun _ ↦ rfl) fun _ ↦ rfl,
    hparents.map _ (fun _ ↦ rfl) fun _ ↦ rfl, fun l hl hreach ↦ ?_⟩
  obtain ⟨child, hchild, rfl⟩ := List.mem_map.mp hl
  have hcount : loopCount (attached.map fun child ↦ { child with depth := depths child })
      child.header = loopCount attached child.header :=
    loopCount_map (fun child ↦ { child with depth := depths child }) fun _ ↦ rfl
  exact (hdepths child hchild hreach).trans hcount.symm

theorem not_forwardEdge_self (f : KirFunction) (x : BlockId) :
    ¬ f.ForwardEdge f.computeKirDominators x x := by
  intro hedge
  have hx := hedge.source
  exact ((forwardEdge_computed hx).mp hedge).2 (Lib.FlowGraph.Dominates.refl _ x)

end KirFunction

/-- Without cycles of forward edges the loops that are found take in every cycle. -/
theorem NaturalLoopAnalysis.Exact.of_loops {f : KirFunction} {loops : List NaturalLoopInfo}
    (hacyclic : ∀ x, ¬ TransGen f.flowGraph.Forward x x) (hfound : f.FoundLoops loops)
    (hparents : ParentsSmallest loops) (hdepth : ∀ l ∈ loops, f.flowGraph.Reachable l.header →
      l.depth = loopCount loops l.header) : NaturalLoopAnalysis.Exact f ⟨loops, []⟩ where
  irreducible x := iff_of_false List.not_mem_nil (hacyclic x)
  reducible := iff_of_true rfl (KirFunction.reducible_iff.mp hacyclic)
  unanalyzed hne := absurd rfl hne
  found _ := hfound
  parents := hparents
  depth := hdepth
  covered _ S hne hinside hS := by
    obtain ⟨h, hh, hheader, hloop⟩ := KirFunction.exists_loop hacyclic hne hinside hS
    obtain ⟨l, hl, rfl⟩ := List.mem_map.mp ((hfound.header h).mpr hheader)
    exact ⟨l, hl, hh, fun x hx ↦ (hfound.mem_blocks hl).mpr (hloop x hx)⟩

/-- With such cycles no loop is looked for. -/
theorem NaturalLoopAnalysis.Exact.of_irreducible {f : KirFunction} {irreducible : List BlockId}
    (hcycles : ∀ x, x ∈ irreducible ↔ TransGen f.flowGraph.Forward x x)
    (hne : irreducible ≠ []) : NaturalLoopAnalysis.Exact f ⟨[], irreducible⟩ where
  irreducible := hcycles
  reducible := by
    refine iff_of_false hne fun hheaders ↦ ?_
    obtain ⟨x, hx⟩ := List.exists_mem_of_ne_nil _ hne
    exact KirFunction.reducible_iff.mpr hheaders x ((hcycles x).mp hx)
  unanalyzed _ := rfl
  found hnil := absurd hnil hne
  parents := fun _ hl ↦ absurd hl List.not_mem_nil
  depth := fun _ hl ↦ absurd hl List.not_mem_nil
  covered hnil := absurd hnil hne

/-- The analysis has a price.  Whoever pays it gets what is exact about the function, and with less
the budget is exhausted. -/
theorem analyzeNaturalLoops_exact (f : KirFunction) :
    ∃ units analysis, Costs f.analyzeNaturalLoops units analysis ∧ analysis.Exact f := by
  suffices hyields : ∃ analysis, Yields f.analyzeNaturalLoops analysis ∧ analysis.Exact f by
    obtain ⟨analysis, ⟨units, hcosts⟩, hexact⟩ := hyields
    exact ⟨units, analysis, hcosts, hexact⟩
  obtain ⟨irreducible, hirreducible, hcycles⟩ := KirFunction.irreducibleBlocks_yields f
    f.computeKirDominators (KirFunction.not_forwardEdge_self f)
  have hcycles := fun x ↦ (hcycles x).trans KirFunction.cycle_computed
  by_cases hnil : irreducible = []
  · subst hnil
    have hacyclic : ∀ x, ¬ TransGen f.flowGraph.Forward x x := fun x hcycle ↦
      List.not_mem_nil ((hcycles x).mpr hcycle)
    obtain ⟨loops, hloops, hfound, hparents, hdepth⟩ := KirFunction.loops_yield f
    exact ⟨⟨loops, []⟩, Yields.spend_bind 1 ((KirFunction.computeDominators_yields f).bind
      (hirreducible.bind hloops)), .of_loops hacyclic hfound hparents hdepth⟩
  · refine ⟨⟨[], irreducible⟩, Yields.spend_bind 1 ((KirFunction.computeDominators_yields f).bind
      (hirreducible.bind ?_)), .of_irreducible hcycles hnil⟩
    rw [if_pos hnil]
    exact Yields.pure _

end CalcKernel
