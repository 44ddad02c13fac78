import CalcKernel.Backend.Wasm.Loops
import CalcKernel.Lib.Laminar

/-!
# The nesting of loops

`attach_loop_parents` gives every loop the closest loop around it.
-/

namespace CalcKernel

open Relation

namespace KirFunction

variable {f : KirFunction} {loops : List NaturalLoop} {l : NaturalLoop} {entry h c d x y : BlockId}
  {owner : Option BlockId}

def headerSet (f : KirFunction) : Set BlockId := {h | f.IsHeader h}

/-- The blocks of the natural loop of a header. -/
def loopSet (f : KirFunction) (h : BlockId) : Set BlockId :=
  {x | f.Reached x ∧ f.flowGraph.InLoop h x}

/-- The blocks of a region. -/
def scopeSet (f : KirFunction) : Option BlockId → Set BlockId
  | none => {x | f.Reached x}
  | some h => f.loopSet h

abbrev Child (f : KirFunction) : Option BlockId → BlockId → Prop :=
  Lib.ChildOf f.headerSet f.loopSet

theorem IsHeader.mem_loopSet (hh : f.IsHeader h) : h ∈ f.loopSet h :=
  ⟨hh.reached, Or.inl (Eq.refl _)⟩

theorem Child.isHeader (hc : f.Child owner c) : f.IsHeader c := by
  have hmem : c ∈ f.headerSet := Lib.ChildOf.mem hc
  exact hmem

theorem laminar_loops (f : KirFunction) : Lib.Laminar f.headerSet f.loopSet where
  nonempty h hh := ⟨h, IsHeader.mem_loopSet hh⟩
  nested h hh k hk hne := by
    by_cases hmeet : ∃ x, x ∈ f.loopSet h ∧ x ∈ f.loopSet k
    · obtain ⟨x, ⟨hx, hxh⟩, _, hxk⟩ := hmeet
      have hsub : ∀ {a b}, f.IsHeader a → (∀ y, f.flowGraph.InLoop b y → f.flowGraph.InLoop a y) →
          ¬ f.flowGraph.InLoop b a → f.loopSet b ⊂ f.loopSet a := fun ha hsub hnot ↦
        ⟨fun y hy ↦ ⟨hy.1, hsub y hy.2⟩, fun hback ↦ hnot (hback (IsHeader.mem_loopSet ha)).2⟩
      rcases Lib.FlowGraph.InLoop.nested_or_nested hne hx.reachable hxh hxk with
        ⟨hkh, hnot⟩ | ⟨hhk, hnot⟩
      · exact Or.inr (Or.inr (hsub hh hkh hnot))
      · exact Or.inr (Or.inl (hsub hk hhk hnot))
    · exact Or.inl (Set.disjoint_left.mpr fun x hxh hxk ↦ hmeet ⟨x, hxh, hxk⟩)

/-- The loop of a header inside another loop does not hold the header of that loop. -/
theorem not_mem_of_child (hc : f.Child (some h) c) : h ∉ f.loopSet c := by
  intro hmem
  obtain ⟨hcHeader, hh, hsub, _⟩ := hc
  have hch : f.flowGraph.Dominates c h := Lib.FlowGraph.InLoop.dominates hmem.2
  have hhc : f.flowGraph.Dominates h c :=
    Lib.FlowGraph.InLoop.dominates (hsub.1 (IsHeader.mem_loopSet hcHeader)).2
  have heq := Lib.FlowGraph.Dominates.antisymm (IsHeader.reached hh).reachable hch hhc
  subst heq
  exact hsub.2 (Set.Subset.refl _)

/-- A loop that holds the entry of the function has it as its header. -/
theorem entry_of_mem_loopSet (hentry : f.entryId? = some entry) (h : entry ∈ f.loopSet c) :
    c = entry := by
  by_contra hne
  exact h.2.dominates entry (Or.inl hentry) (Ne.symm hne) .refl

theorem Child.subset_scope (hc : f.Child owner c) : f.loopSet c ⊆ f.scopeSet owner := by
  cases owner with
  | none => exact fun x hx ↦ hx.1
  | some h => exact hc.2.2.1.1

/-- Loops with the parents `attach_loop_parents` gives them. -/
structure LoopForest (f : KirFunction) (loops : List NaturalLoop) : Prop
    extends f.LoopSet loops where
  parent : ∀ l ∈ loops, f.Child l.parent l.header

theorem LoopSet.mem_blocks (hL : f.LoopSet loops) (hl : l ∈ loops) :
    x ∈ l.blocks ↔ x ∈ f.loopSet l.header := hL.mem l hl x

theorem LoopSet.subset_iff (hL : f.LoopSet loops) {k : NaturalLoop} (hl : l ∈ loops)
    (hk : k ∈ loops) : l.blocks ⊆ k.blocks ↔ f.loopSet l.header ⊆ f.loopSet k.header := by
  constructor
  · intro hsub x hx
    exact (hL.mem_blocks hk).mp (hsub ((hL.mem_blocks hl).mpr hx))
  · intro hsub x hx
    exact (hL.mem_blocks hk).mpr (hsub ((hL.mem_blocks hl).mp hx))

theorem LoopSet.eq_of_header (hL : f.LoopSet loops) {k : NaturalLoop} (hl : l ∈ loops)
    (hk : k ∈ loops) (h : l.header = k.header) : l = k :=
  List.inj_on_of_nodup_map hL.headersNodup hl hk h

theorem LoopSet.length_lt (hL : f.LoopSet loops) {k : NaturalLoop} (hl : l ∈ loops)
    (hk : k ∈ loops) (h : f.loopSet l.header ⊂ f.loopSet k.header) :
    l.blocks.length < k.blocks.length := by
  have hsub : l.blocks ⊆ k.blocks := (hL.subset_iff hl hk).mpr h.1
  have hle := (List.subperm_of_subset (hL.nodup l hl) hsub).length_le
  refine lt_of_le_of_ne hle fun heq ↦ h.2 fun x hx ↦ ?_
  have hperm := (List.subperm_of_subset (hL.nodup l hl) hsub).perm_of_length_le heq.ge
  exact (hL.mem_blocks hl).mp (hperm.mem_iff.mpr ((hL.mem_blocks hk).mpr hx))

/-- The candidates for the parent are the loops strictly around. -/
theorem LoopSet.candidate_iff (hL : f.LoopSet loops) {k : NaturalLoop} (hl : l ∈ loops) :
    k ∈ (loops.filter fun candidate ↦
        candidate.header ≠ l.header ∧ l.blocks ⊆ candidate.blocks) ↔
      k ∈ loops ∧ f.loopSet l.header ⊂ f.loopSet k.header := by
  rw [List.mem_filter, decide_eq_true_eq]
  constructor
  · rintro ⟨hk, hne, hsub⟩
    refine ⟨hk, ?_⟩
    have hsub := (hL.subset_iff hl hk).mp hsub
    have hlHeader := (hL.header l.header).mp (List.mem_map_of_mem hl)
    have hkHeader := (hL.header k.header).mp (List.mem_map_of_mem hk)
    have hmem := IsHeader.mem_loopSet hlHeader
    rcases (laminar_loops f).ssubset_or_ssubset hlHeader hkHeader (Ne.symm hne) hmem (hsub hmem)
      with hlt | hlt
    · exact hlt
    · exact absurd hsub hlt.2
  · rintro ⟨hk, hlt⟩
    refine ⟨hk, fun heq ↦ hlt.2 ?_, (hL.subset_iff hl hk).mpr hlt.1⟩
    rw [heq]

theorem LoopSet.loopParent_child (hL : f.LoopSet loops) (hl : l ∈ loops) :
    f.Child (f.loopParent loops l) l.header := by
  have hheader : ∀ {k : NaturalLoop}, k ∈ loops → f.IsHeader k.header := fun hk ↦
    (hL.header _).mp (List.mem_map_of_mem hk)
  have hloop : ∀ {j : BlockId}, f.IsHeader j → ∃ k ∈ loops, k.header = j := fun hj ↦
    List.mem_map.mp ((hL.header _).mpr hj)
  unfold loopParent
  cases hmin : (loops.filter fun candidate ↦
      candidate.header ≠ l.header ∧ l.blocks ⊆ candidate.blocks).argmin fun candidate ↦
    toLex (candidate.blocks.length, (f.ordinal candidate.header).getD usizeMax) with
  | none =>
      rw [List.argmin_eq_none] at hmin
      refine ⟨hheader hl, fun j hj hlt ↦ ?_⟩
      obtain ⟨k, hk, rfl⟩ := hloop hj
      have hmem := (hL.candidate_iff hl).mpr ⟨hk, hlt⟩
      rw [hmin] at hmem
      cases hmem
  | some p =>
      obtain ⟨hp, hlp⟩ := (hL.candidate_iff hl).mp (List.argmin_mem hmin)
      -- the closest loop is the smallest one
      let size : BlockId → Nat := fun h ↦
        ((loops.find? (·.header = h)).map (·.blocks.length)).getD 0
      have hsize : ∀ {k : NaturalLoop}, k ∈ loops → size k.header = k.blocks.length := by
        intro k hk
        have hfind := Lib.find?_of_mem NaturalLoop.header hL.headersNodup hk
        simp only [size, hfind, Option.map_some, Option.getD_some]
      refine (laminar_loops f).childOf_of_smallest size ?_ (hheader hl) (hheader hp) hlp ?_
      · intro i hi j hj hij
        obtain ⟨k, hk, rfl⟩ := hloop hi
        obtain ⟨k', hk', rfl⟩ := hloop hj
        rw [hsize hk, hsize hk']
        exact hL.length_lt hk hk' hij
      · intro j hj hlj
        obtain ⟨k, hk, rfl⟩ := hloop hj
        rw [hsize hp, hsize hk]
        have hle := List.le_of_mem_argmin ((hL.candidate_iff hl).mpr ⟨hk, hlj⟩) hmin
        rcases Prod.Lex.le_iff.mp hle with hlt | ⟨heq, _⟩
        · exact hlt.le
        · exact heq.le

theorem attachLoopParents_forest (hL : f.LoopSet loops) :
    f.LoopForest (f.attachLoopParents loops) := by
  have hheaders : (f.attachLoopParents loops).map (·.header) = loops.map (·.header) := by
    simp [attachLoopParents]
  refine ⟨⟨hheaders ▸ hL.headersNodup, fun h ↦ hheaders ▸ hL.header h, fun l hl x ↦ ?_,
    fun l hl ↦ ?_⟩, fun l hl ↦ ?_⟩
  · obtain ⟨k, hk, rfl⟩ := List.mem_map.mp hl
    exact hL.mem k hk x
  · obtain ⟨k, hk, rfl⟩ := List.mem_map.mp hl
    exact hL.nodup k hk
  · obtain ⟨k, hk, rfl⟩ := List.mem_map.mp hl
    exact hL.loopParent_child hk

/-- Every loop inside a region lies in one of the region's own loops. -/
theorem LoopForest.exists_child (hF : f.LoopForest loops) (hh : f.IsHeader h)
    (howner : ∀ o, owner = some o → f.IsHeader o ∧ f.loopSet h ⊂ f.loopSet o) :
    ∃ c, f.Child owner c ∧ f.loopSet h ⊆ f.loopSet c := by
  have hloop : ∀ {j : BlockId}, f.IsHeader j → ∃ k ∈ loops, k.header = j := fun hj ↦
    List.mem_map.mp ((hF.header _).mpr hj)
  let size : BlockId → Nat := fun h ↦
    ((loops.find? (·.header = h)).map (·.blocks.length)).getD 0
  have hsize : ∀ {k : NaturalLoop}, k ∈ loops → size k.header = k.blocks.length := by
    intro k hk
    have hfind := Lib.find?_of_mem NaturalLoop.header hF.headersNodup hk
    simp only [size, hfind, Option.map_some, Option.getD_some]
  refine (laminar_loops f).exists_child size (loops.map (·.blocks.length)).sum ?_ ?_ ?_ hh howner
  · intro i hi j hj hij
    obtain ⟨k, hk, rfl⟩ := hloop hi
    obtain ⟨k', hk', rfl⟩ := hloop hj
    rw [hsize hk, hsize hk']
    exact hF.length_lt hk hk' hij
  · intro i hi
    obtain ⟨k, hk, rfl⟩ := hloop hi
    rw [hsize hk]
    exact List.le_sum_of_mem (List.mem_map_of_mem hk)
  · intro i hi
    obtain ⟨k, hk, rfl⟩ := hloop hi
    exact ⟨k.parent, hF.parent k hk⟩

end KirFunction

end CalcKernel
