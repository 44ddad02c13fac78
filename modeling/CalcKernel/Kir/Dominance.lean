import CalcKernel.Kir.MemoryValidation
import CalcKernel.Lib.Assoc
import CalcKernel.Lib.FlowGraph
import Mathlib.Algebra.Order.BigOperators.Group.List
import Mathlib.Algebra.Order.Ring.Nat
import Mathlib.Data.List.Sort

/-!
# Dominators

The source shrinks a matrix of bits until nothing changes; it computes the dominators
of the flow graph that is entered at the entry and at the blocks without predecessors.
-/

namespace CalcKernel

/-- The candidates whose bits are set in the row of each block. -/
abbrev DominatorRows := BlockId → List BlockId

namespace KirFunction

variable (f : KirFunction)

def entryId? : Option BlockId := f.blocks.head?.map (·.id)

def blockIds : List BlockId := f.blocks.map (·.id)

def sortedIds : List BlockId := f.blockIds.insertionSort (· ≤ ·)

/-- The sources of the edges to a block, in the order of the blocks. -/
def flowPredecessors (target : BlockId) : List BlockId :=
  f.blocks.flatMap fun b ↦ (b.terminator.successors.filter (· = target)).map fun _ ↦ b.id

/-- A bit of the next row: the block itself, or a bit set in the rows of all predecessors. -/
def nextBit (rows : DominatorRows) (block candidate : BlockId) : Bool :=
  candidate = block || match f.flowPredecessors block with
    | [] => false
    | first :: others =>
        (rows first).contains candidate && others.all fun p ↦ (rows p).contains candidate

def nextRow (rows : DominatorRows) (block : BlockId) : List BlockId :=
  f.sortedIds.filter (f.nextBit rows block)

def startRows (entry : BlockId) : DominatorRows := fun block ↦
  if block = entry ∨ f.flowPredecessors block = [] then f.sortedIds.filter (· = block)
  else f.sortedIds

/-- The row of one block is brought up to date. -/
def dominatorStep (entry : BlockId) (state : DominatorRows × Bool) (block : BlockId) :
    DominatorRows × Bool :=
  if block = entry ∨ state.1 block = f.nextRow state.1 block then state
  else (Function.update state.1 block (f.nextRow state.1 block), true)

def dominatorRound (entry : BlockId) (rows : DominatorRows) : DominatorRows × Bool :=
  f.sortedIds.foldl (f.dominatorStep entry) (rows, false)

/-- Rounds until nothing changes. -/
def dominatorRows (entry : BlockId) : Nat → DominatorRows → Option DominatorRows
  | 0, _ => none
  | fuel + 1, rows =>
      let state := f.dominatorRound entry rows
      if state.2 then dominatorRows entry fuel state.1 else some state.1

/-- The rounds are at most the bits, and one more. -/
def computeKirDominators : Dominators := fun dominator block ↦
  match f.entryId? with
  | none => false
  | some entry =>
      match f.dominatorRows entry (f.blocks.length * f.blocks.length + 1) (f.startRows entry) with
      | none => false
      | some rows => f.sortedIds.contains block && (rows block).contains dominator

/-- The blocks with their edges, entered at the entry and at blocks that no edge leads to. -/
def flowGraph : Lib.FlowGraph BlockId where
  edge x y := x ∈ f.flowPredecessors y ∧ y ∈ f.blockIds
  root r := f.entryId? = some r ∨ (r ∈ f.blockIds ∧ f.flowPredecessors r = [])

/-- The flow graph as a run sees it, entered at the entry only. -/
def entryGraph : Lib.FlowGraph BlockId where
  edge := f.flowGraph.edge
  root r := f.entryId? = some r

variable {f} {entry block candidate d x y : BlockId} {rows : DominatorRows}

theorem block?_of_mem {b : KirBlock} (hnodup : f.blockIds.Nodup) (hb : b ∈ f.blocks) :
    f.block? b.id = some b :=
  Lib.find?_of_mem KirBlock.id hnodup hb

theorem mem_sortedIds : x ∈ f.sortedIds ↔ x ∈ f.blockIds := by
  simp [sortedIds]

theorem length_sortedIds : f.sortedIds.length = f.blocks.length := by
  simp [sortedIds, blockIds]

theorem mem_flowPredecessors : x ∈ f.flowPredecessors y ↔
    ∃ b ∈ f.blocks, b.id = x ∧ y ∈ b.terminator.successors := by
  simp only [flowPredecessors, List.mem_flatMap, List.mem_map, List.mem_filter, decide_eq_true_eq]
  constructor
  · rintro ⟨b, hb, _, ⟨hy, rfl⟩, rfl⟩
    exact ⟨b, hb, rfl, hy⟩
  · rintro ⟨b, hb, rfl, hy⟩
    exact ⟨b, hb, y, ⟨hy, rfl⟩, rfl⟩

theorem mem_blockIds_of_flowPredecessors (h : x ∈ f.flowPredecessors y) : x ∈ f.blockIds := by
  obtain ⟨b, hb, rfl, _⟩ := mem_flowPredecessors.mp h
  exact List.mem_map_of_mem hb

theorem nextBit_iff : f.nextBit rows block candidate = true ↔ candidate = block ∨
    (f.flowPredecessors block ≠ [] ∧ ∀ p ∈ f.flowPredecessors block, candidate ∈ rows p) := by
  unfold nextBit
  cases f.flowPredecessors block <;> simp

theorem mem_nextRow : candidate ∈ f.nextRow rows block ↔ candidate ∈ f.blockIds ∧
    (candidate = block ∨ (f.flowPredecessors block ≠ [] ∧
      ∀ p ∈ f.flowPredecessors block, candidate ∈ rows p)) := by
  rw [nextRow, List.mem_filter, mem_sortedIds, nextBit_iff]

/-- The table depends on the blocks and on where their edges lead only. -/
theorem computeKirDominators_congr {g : KirFunction} (hids : g.blockIds = f.blockIds)
    (hpredecessors : g.flowPredecessors = f.flowPredecessors) :
    g.computeKirDominators = f.computeKirDominators := by
  have hsorted : g.sortedIds = f.sortedIds := by rw [sortedIds, sortedIds, hids]
  have hentry : g.entryId? = f.entryId? := by
    rw [entryId?, entryId?, ← List.head?_map, ← List.head?_map]
    exact congrArg List.head? hids
  have hlength : g.blocks.length = f.blocks.length := by
    simpa [blockIds] using congrArg List.length hids
  have hrow : g.nextRow = f.nextRow := by
    funext rows block
    have hbit : g.nextBit rows block = f.nextBit rows block := by
      funext candidate
      rw [nextBit, nextBit, hpredecessors]
    rw [nextRow, nextRow, hsorted, hbit]
  have hround : g.dominatorRound = f.dominatorRound := by
    funext entry rows
    have hstep : g.dominatorStep entry = f.dominatorStep entry := by
      funext state block
      rw [dominatorStep, dominatorStep, hrow]
    rw [dominatorRound, dominatorRound, hsorted, hstep]
  have hrows : ∀ entry fuel rows, g.dominatorRows entry fuel rows = f.dominatorRows entry fuel rows := by
    intro entry fuel
    induction fuel with
    | zero => exact fun _ ↦ rfl
    | succ fuel ih =>
        intro rows
        simp only [dominatorRows, hround, ih]
  have hstart : g.startRows = f.startRows := by
    funext entry block
    rw [startRows, startRows, hsorted, hpredecessors]
  funext dominator block
  simp only [computeKirDominators, hentry, hlength, hrows, hstart, hsorted]

/-! ## The invariant of the rounds -/

/-- Rows list blocks in order, are no smaller than their next versions, and keep all that
dominates. -/
structure RowsInvariant (f : KirFunction) (entry : BlockId) (rows : DominatorRows) : Prop where
  row : ∀ b, ∃ p : BlockId → Bool, rows b = f.sortedIds.filter p
  shrinks : ∀ b, b ≠ entry → ∀ c ∈ f.nextRow rows b, c ∈ rows b
  entryRow : rows entry = f.sortedIds.filter (· = entry)
  dominators : ∀ d ∈ f.blockIds, ∀ b ∈ f.blockIds, f.flowGraph.Dominates d b → d ∈ rows b

namespace RowsInvariant

theorem start (hentry : f.entryId? = some entry) : RowsInvariant f entry (f.startRows entry) where
  row b := by
    unfold startRows
    split
    · exact ⟨_, rfl⟩
    · exact ⟨fun _ ↦ true, by simp⟩
  shrinks b hb c hc := by
    obtain ⟨hmem, hc⟩ := mem_nextRow.mp hc
    unfold startRows
    split
    · rename_i hroot
      rcases hc with rfl | ⟨hne, _⟩
      · simpa [mem_sortedIds] using hmem
      · rcases hroot with hroot | hroot
        · exact absurd hroot hb
        · exact absurd hroot hne
    · exact mem_sortedIds.mpr hmem
  entryRow := by simp [startRows]
  dominators d hd b hb hdom := by
    unfold startRows
    split
    · rename_i hroot
      have hroot : f.flowGraph.root b := by
        rcases hroot with rfl | hroot
        · exact Or.inl hentry
        · exact Or.inr ⟨hb, hroot⟩
      have hbd : b = d := by
        by_contra hne
        exact hdom b hroot hne .refl
      simpa [mem_sortedIds, hbd] using hd
    · exact mem_sortedIds.mpr hd

/-- Bringing one row up to date. -/
theorem update (h : RowsInvariant f entry rows) (hb : block ≠ entry) (hmem : block ∈ f.blockIds) :
    RowsInvariant f entry (Function.update rows block (f.nextRow rows block)) where
  row b := by
    by_cases hbb : b = block
    · subst hbb
      exact ⟨_, Function.update_self ..⟩
    · rw [Function.update_of_ne hbb]
      exact h.row b
  shrinks b hne c hc := by
    have hmono : c ∈ f.nextRow rows b := by
      obtain ⟨hc, hbit⟩ := mem_nextRow.mp hc
      refine mem_nextRow.mpr ⟨hc, hbit.imp_right fun ⟨hpreds, hall⟩ ↦ ⟨hpreds, fun p hp ↦ ?_⟩⟩
      have hcp := hall p hp
      by_cases hpb : p = block
      · subst hpb
        rw [Function.update_self] at hcp
        exact h.shrinks p hb c hcp
      · rwa [Function.update_of_ne hpb] at hcp
    by_cases hbb : b = block
    · subst hbb
      rwa [Function.update_self]
    · rw [Function.update_of_ne hbb]
      exact h.shrinks b hne c hmono
  entryRow := by rw [Function.update_of_ne (Ne.symm hb), h.entryRow]
  dominators d hd b hbMem hdom := by
    by_cases hbb : b = block
    · subst hbb
      rw [Function.update_self]
      refine mem_nextRow.mpr ⟨hd, ?_⟩
      by_cases hdb : d = b
      · exact Or.inl hdb
      · refine Or.inr ⟨fun hnil ↦ ?_, fun p hp ↦ ?_⟩
        · exact hdom b (Or.inr ⟨hbMem, hnil⟩) (Ne.symm hdb) .refl
        · exact h.dominators d hd p (mem_blockIds_of_flowPredecessors hp)
            (hdom.of_edge (Ne.symm hdb) ⟨hp, hbMem⟩)
    · rw [Function.update_of_ne hbb]
      exact h.dominators d hd b hbMem hdom

/-- A row that changes gets shorter. -/
theorem length_nextRow_lt (h : RowsInvariant f entry rows) (hb : block ≠ entry)
    (hne : rows block ≠ f.nextRow rows block) :
    (f.nextRow rows block).length < (rows block).length := by
  obtain ⟨p, hp⟩ := h.row block
  have hfilter : f.nextRow rows block = (rows block).filter (f.nextBit rows block) := by
    rw [nextRow, hp, List.filter_filter]
    apply List.filter_congr
    intro c hc
    by_cases hbit : f.nextBit rows block c = true
    · have hmem := h.shrinks block hb c (List.mem_filter.mpr ⟨hc, hbit⟩)
      rw [hp, List.mem_filter] at hmem
      rw [hbit, hmem.2]
      rfl
    · rw [Bool.not_eq_true] at hbit
      rw [hbit, Bool.false_and]
  have hsub : (f.nextRow rows block).Sublist (rows block) := by
    rw [hfilter]
    exact List.filter_sublist
  exact lt_of_le_of_ne hsub.length_le fun hlen ↦ hne (hsub.eq_of_length hlen).symm

end RowsInvariant

/-- What the steps over a list of blocks do to the rows. -/
structure RoundDone (f : KirFunction) (entry : BlockId) (blocks : List BlockId)
    (state state' : DominatorRows × Bool) : Prop where
  invariant : RowsInvariant f entry state'.1
  length_le : ∀ b, (state'.1 b).length ≤ (state.1 b).length
  stable : state'.2 = false → state.2 = false ∧ state'.1 = state.1 ∧
    ∀ b ∈ blocks, b ≠ entry → state.1 b = f.nextRow state.1 b
  shorter : state'.2 = true → state.2 = true ∨
    ∃ b ∈ blocks, (state'.1 b).length < (state.1 b).length

theorem dominatorStep_done {state : DominatorRows × Bool} (h : RowsInvariant f entry state.1)
    (hmem : block ∈ f.blockIds) :
    RoundDone f entry [block] state (f.dominatorStep entry state block) := by
  unfold dominatorStep
  split
  · rename_i hcond
    refine ⟨h, fun b ↦ le_rfl, fun hfalse ↦ ⟨hfalse, rfl, ?_⟩, Or.inl⟩
    intro b hb hne
    obtain rfl := List.mem_singleton.mp hb
    exact hcond.resolve_left hne
  · rename_i hcond
    rw [not_or] at hcond
    have hlt := h.length_nextRow_lt hcond.1 hcond.2
    refine ⟨h.update hcond.1 hmem, fun b ↦ ?_, ?_, fun _ ↦ Or.inr ⟨block, by simp, ?_⟩⟩
    · dsimp only
      by_cases hb : b = block
      · subst hb
        rw [Function.update_self]
        exact hlt.le
      · rw [Function.update_of_ne hb]
    · intro hfalse
      cases hfalse
    · dsimp only
      rw [Function.update_self]
      exact hlt

theorem dominatorSteps_done (blocks : List BlockId) {state : DominatorRows × Bool}
    (h : RowsInvariant f entry state.1) (hmem : ∀ b ∈ blocks, b ∈ f.blockIds) :
    RoundDone f entry blocks state (blocks.foldl (f.dominatorStep entry) state) := by
  induction blocks generalizing state with
  | nil => exact ⟨h, fun b ↦ le_rfl, fun hfalse ↦ ⟨hfalse, rfl, by simp⟩, Or.inl⟩
  | cons b blocks ih =>
      have hfirst := dominatorStep_done h (hmem b List.mem_cons_self)
      have hrest := ih hfirst.invariant fun c hc ↦ hmem c (List.mem_cons_of_mem _ hc)
      refine ⟨hrest.invariant, fun c ↦ (hrest.length_le c).trans (hfirst.length_le c), ?_, ?_⟩
      · intro hfalse
        obtain ⟨hfalse', hrows', hstable'⟩ := hrest.stable hfalse
        obtain ⟨hfalse'', hrows'', hstable''⟩ := hfirst.stable hfalse'
        refine ⟨hfalse'', hrows'.trans hrows'', fun c hc hne ↦ ?_⟩
        rcases List.mem_cons.mp hc with rfl | hc
        · exact hstable'' c (by simp) hne
        · rw [← hrows'']
          exact hstable' c hc hne
      · intro htrue
        rcases hrest.shorter htrue with htrue | ⟨c, hc, hlt⟩
        · rcases hfirst.shorter htrue with htrue | ⟨c, hc, hlt⟩
          · exact Or.inl htrue
          · obtain rfl := List.mem_singleton.mp hc
            exact Or.inr ⟨c, List.mem_cons_self, (hrest.length_le c).trans_lt hlt⟩
        · exact Or.inr ⟨c, List.mem_cons_of_mem _ hc, hlt.trans_le (hfirst.length_le c)⟩

/-- The number of bits that are set. -/
def rowBits (f : KirFunction) (rows : DominatorRows) : Nat :=
  (f.sortedIds.map fun b ↦ (rows b).length).sum

/-- The rounds end with rows that a further round leaves as they are. -/
theorem dominatorRows_returns (fuel : Nat) (h : RowsInvariant f entry rows)
    (hfuel : f.rowBits rows < fuel) : ∃ rows', f.dominatorRows entry fuel rows = some rows' ∧
      RowsInvariant f entry rows' ∧
      ∀ b ∈ f.blockIds, b ≠ entry → rows' b = f.nextRow rows' b := by
  induction fuel generalizing rows with
  | zero => exact absurd hfuel (Nat.not_lt_zero _)
  | succ fuel ih =>
      have hround : RoundDone f entry f.sortedIds (rows, false) (f.dominatorRound entry rows) :=
        dominatorSteps_done f.sortedIds h fun b hb ↦ mem_sortedIds.mp hb
      rw [dominatorRows]
      by_cases hchanged : (f.dominatorRound entry rows).2 = true
      · rw [if_pos hchanged]
        apply ih hround.invariant
        rcases hround.shorter hchanged with hfalse | ⟨b, hb, hlt⟩
        · cases hfalse
        · have hless : f.rowBits (f.dominatorRound entry rows).1 < f.rowBits rows :=
            List.sum_lt_sum _ _ (fun c _ ↦ hround.length_le c) ⟨b, hb, hlt⟩
          omega
      · rw [if_neg hchanged]
        rw [Bool.not_eq_true] at hchanged
        obtain ⟨_, hrows, hstable⟩ := hround.stable hchanged
        refine ⟨_, rfl, hround.invariant, fun b hb hne ↦ ?_⟩
        rw [hrows]
        exact hstable b (mem_sortedIds.mpr hb) hne

theorem rowBits_startRows_le (entry : BlockId) :
    f.rowBits (f.startRows entry) ≤ f.blocks.length * f.blocks.length := by
  have hrow : ∀ b ∈ f.sortedIds, (f.startRows entry b).length ≤ f.blocks.length := by
    intro b _
    unfold startRows
    split
    · exact (List.length_filter_le _ _).trans length_sortedIds.le
    · exact length_sortedIds.le
  have hsum := List.sum_le_card_nsmul (f.sortedIds.map fun b ↦ (f.startRows entry b).length)
    f.blocks.length (by simpa using hrow)
  simpa [rowBits, length_sortedIds] using hsum

/-- A block that a path from a root reaches without a candidate does not have its bit. -/
theorem not_mem_row (hentry : f.entryId? = some entry) (h : RowsInvariant f entry rows)
    (hstable : ∀ b ∈ f.blockIds, b ≠ entry → rows b = f.nextRow rows b)
    (hroot : f.flowGraph.root x) (hx : x ≠ d) (hpath : f.flowGraph.Avoids d x y) : d ∉ rows y := by
  unfold Lib.FlowGraph.Avoids at hpath
  induction hpath with
  | refl =>
      intro hd
      by_cases hxe : x = entry
      · subst hxe
        rw [h.entryRow] at hd
        simp at hd
        exact hx hd.2.symm
      · rcases hroot with hroot | ⟨hmem, hnil⟩
        · rw [hentry] at hroot
          exact hxe (Option.some.inj hroot).symm
        · rw [hstable x hmem hxe, mem_nextRow] at hd
          rcases hd.2 with hdx | ⟨hne, _⟩
          · exact hx hdx.symm
          · exact hne hnil
  | @tail y z _ hstep ih =>
      obtain ⟨⟨hpred, hmem⟩, hzd⟩ := hstep
      intro hd
      by_cases hze : z = entry
      · subst hze
        rw [h.entryRow] at hd
        simp at hd
        exact hzd hd.2.symm
      · rw [hstable z hmem hze, mem_nextRow] at hd
        rcases hd.2 with hdz | ⟨_, hall⟩
        · exact hzd hdz.symm
        · exact ih (hall y hpred)

/-- The sets computed are those of the dominators in the flow graph. -/
theorem computeKirDominators_iff (hentry : f.entryId? = some entry) (hx : x ∈ f.blockIds)
    (hy : y ∈ f.blockIds) : f.computeKirDominators x y = true ↔ f.flowGraph.Dominates x y := by
  obtain ⟨rows, hrows, hinv, hstable⟩ := dominatorRows_returns
    (f.blocks.length * f.blocks.length + 1) (RowsInvariant.start hentry)
    (Nat.lt_succ_of_le (rowBits_startRows_le entry))
  have hcompute : f.computeKirDominators x y = true ↔ x ∈ rows y := by
    rw [computeKirDominators, hentry]
    dsimp only
    rw [hrows]
    simp [mem_sortedIds, hy]
  rw [hcompute]
  constructor
  · intro hmem r hroot hr hpath
    exact not_mem_row hentry hinv hstable hroot hr hpath hmem
  · exact hinv.dominators x hx y hy

end KirFunction

end CalcKernel
