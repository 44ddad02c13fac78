import CalcKernel.Optimizer.CfgCanonicalize

/-!
# Cycles of branch threads

The branch blocks whose edges are left alone are those on cycles of branch blocks: the two
passes of Kosaraju's algorithm come to their end and find the components.
-/

namespace CalcKernel

open Lib Relation

section Threads

variable {branches : List KirBlock} {x y : BlockId}

/-- One branch block follows another. -/
def ThreadEdge (branches : List KirBlock) (x y : BlockId) : Prop :=
  y ∈ threadSuccessors branches x

def threadIds (branches : List KirBlock) : List BlockId := sortedSet (branches.map (·.id))

theorem mem_threadIds_of_threadAt {b : KirBlock} (h : threadAt branches x = some b) :
    x ∈ threadIds branches := by
  have hb := List.find?_some h
  refine mem_sortedSet.mpr (List.mem_map.mpr ⟨b, ?_, by simpa using hb⟩)
  exact List.mem_reverse.mp (List.mem_of_find?_eq_some h)

theorem ThreadEdge.mem (h : ThreadEdge branches x y) :
    x ∈ threadIds branches ∧ y ∈ threadIds branches := by
  unfold ThreadEdge threadSuccessors at h
  split at h
  · rename_i b hb
    obtain ⟨c, hc⟩ := Option.isSome_iff_exists.mp (List.mem_filter.mp h).2
    exact ⟨mem_threadIds_of_threadAt hb, mem_threadIds_of_threadAt hc⟩
  · cases h

theorem mem_threadPredecessors :
    x ∈ threadPredecessors branches y ↔ ThreadEdge branches x y := by
  unfold threadPredecessors
  rw [List.mem_flatMap]
  constructor
  · rintro ⟨source, -, hx⟩
    obtain ⟨target, htarget, heq⟩ := List.mem_filterMap.mp hx
    split at heq
    · rename_i hy
      cases heq
      exact hy ▸ htarget
    · cases heq
  · intro h
    exact ⟨x, h.mem.1, List.mem_filterMap.mpr ⟨y, h, if_pos rfl⟩⟩

/-! ## The first pass -/

/-- What the traversal pushes. -/
def threadPush (branches : List KirBlock) (visited : List BlockId) (id : BlockId) : List BlockId :=
  (threadSuccessors branches id).filter (· ∉ visited)

theorem threadPush_pushes (branches : List KirBlock) :
    Traversal.Pushes (threadPush branches) (threadSuccessors branches) where
  subset _ _ _ hy := (List.mem_filter.mp hy).1
  covers visited _ y hy := by
    by_cases hmem : y ∈ visited
    · exact .inl hmem
    · exact .inr (List.mem_filter.mpr ⟨hy, decide_eq_true hmem⟩)

theorem threadPotential_le (s : Traversal BlockId) (start : BlockId) :
    Traversal.potential (threadSuccessors branches) (threadIds branches)
      { s with stack := [(start, false)] } ≤ threadFuel branches := by
  unfold Traversal.potential threadFuel
  rw [Nat.add_comm]
  refine Nat.add_le_add (List.sum_le_sum fun id _ ↦ ?_) le_rfl
  split
  · exact Nat.zero_le _
  · exact le_rfl

/-- The traversal of a list of roots: all of them are entered. -/
theorem threadFinish_from {roots : List BlockId} (hroots : roots ⊆ threadIds branches)
    {s : Traversal BlockId} (hs : s.Rested (threadSuccessors branches))
    (hinside : s.visited ⊆ threadIds branches) :
    ∃ s', roots.foldlM (fun (s : Traversal BlockId) start ↦
      if start ∈ s.visited then some s
      else (({ s with stack := [(start, false)] } : Traversal BlockId).run
        (threadPush branches) (threadFuel branches)).map (·.2)) s = some s' ∧
      s'.Rested (threadSuccessors branches) ∧ s'.visited ⊆ threadIds branches ∧
      s.visited ⊆ s'.visited ∧ roots ⊆ s'.visited := by
  induction roots generalizing s with
  | nil => exact ⟨s, rfl, hs, hinside, fun x hx ↦ hx, List.nil_subset _⟩
  | cons start roots ih =>
      have hmem : start ∈ threadIds branches := hroots List.mem_cons_self
      have hclosed : ∀ v ∈ threadIds branches, threadSuccessors branches v ⊆ threadIds branches :=
        fun v _ y hy ↦ (ThreadEdge.mem (x := v) hy).2
      have hroot : ∀ p ∈ [(start, false)], p.1 ∈ threadIds branches := fun p hp ↦ by
        rw [List.mem_singleton.mp hp]
        exact hmem
      obtain ⟨r, hr, hrest, hinside', hgrow, hstart⟩ : ∃ r, (if start ∈ s.visited then some s
          else (({ s with stack := [(start, false)] } : Traversal BlockId).run
            (threadPush branches) (threadFuel branches)).map (·.2)) = some r ∧
          r.Rested (threadSuccessors branches) ∧ r.visited ⊆ threadIds branches ∧
          s.visited ⊆ r.visited ∧ start ∈ r.visited := by
        split
        · rename_i hvisited
          exact ⟨s, rfl, hs, hinside, fun x hx ↦ hx, hvisited⟩
        · obtain ⟨fuel', r, hrun, -⟩ := Traversal.run_returns (threadPush_pushes branches)
            (fun _ _ ↦ List.length_filter_le _ _) hclosed
            (s := { s with stack := [(start, false)] }) hroot (threadPotential_le s start)
          obtain ⟨hrest, hgrow, hall⟩ :=
            Traversal.run_spec (threadPush_pushes branches) (hs.root start) hrun
          exact ⟨r, by rw [hrun]; rfl, hrest,
            Traversal.run_inside (threadPush_pushes branches) hclosed
              (s := { s with stack := [(start, false)] }) hroot hinside hrun,
            hgrow, hall start (List.mem_singleton_self _)⟩
      obtain ⟨s', hs', hrest', hinside', hgrow', hroots'⟩ :=
        ih (List.subset_of_cons_subset hroots) hrest hinside'
      refine ⟨s', ?_, hrest', hinside', fun x hx ↦ hgrow' (hgrow hx), ?_⟩
      · rw [List.foldlM_cons, hr]
        exact hs'
      · exact List.cons_subset.mpr ⟨hgrow' hstart, hroots'⟩

/-- The branch blocks are left in a leaving order. -/
theorem threadFinish_spec (branches : List KirBlock) :
    ∃ finish, threadFinish branches = some finish ∧
      LeavingOrder (ThreadEdge branches) finish ∧ ∀ x, x ∈ finish ↔ x ∈ threadIds branches := by
  obtain ⟨s, hs, hrest, hinside, -, hroots⟩ := threadFinish_from
    (List.Subset.refl (threadIds branches)) (Traversal.Rested.start (threadSuccessors branches)) (List.nil_subset _)
  refine ⟨s.finish, ?_, hrest.invariant.leavingOrder hrest.stack, fun x ↦
    hrest.mem_visited.symm.trans ⟨fun hx ↦ hinside hx, fun hx ↦ hroots hx⟩⟩
  exact congrArg (Option.map (·.finish)) hs

/-! ## The second pass -/

/-- A component that is gathered: the elements whose predecessors are not known yet are pending,
but for the one whose predecessors are looked at. -/
structure Gathered (branches : List KirBlock) (assigned : List BlockId) (start : BlockId)
    (open_ : List BlockId) (s : Gathering) : Prop where
  nodup : s.component.Nodup
  known : ∀ x, x ∈ s.assigned ↔ x ∈ assigned ∨ x ∈ s.component
  apart : ∀ x ∈ s.component, x ∉ assigned
  root : start ∈ s.component
  subset : s.component ⊆ threadIds branches
  reach : ∀ x ∈ s.component,
    ReflTransGen (fun x y ↦ ThreadEdge branches x y ∧ y ∉ assigned) x start
  pending : s.pending ⊆ s.component
  closed : ∀ y ∈ s.component, y ∈ s.pending ∨ y ∈ open_ ∨
    ∀ x, ThreadEdge branches x y → x ∈ s.assigned

variable {assigned : List BlockId} {start id : BlockId} {open_ : List BlockId} {s : Gathering}

theorem Gathered.single (hstart : start ∉ assigned) (hmem : start ∈ threadIds branches) :
    Gathered branches assigned start [] ⟨[start], start :: assigned, [start]⟩ where
  nodup := List.nodup_singleton start
  known x := by simp [or_comm]
  apart x hx := List.mem_singleton.mp hx ▸ hstart
  root := List.mem_singleton_self start
  subset x hx := List.mem_singleton.mp hx ▸ hmem
  reach x hx := List.mem_singleton.mp hx ▸ .refl
  pending x hx := hx
  closed y hy := .inl hy

/-- Looking at one predecessor; the elements gathered and pending grow together. -/
theorem Gathered.previous (h : Gathered branches assigned start [id] s) (hid : id ∈ s.component)
    (hedge : ThreadEdge branches x id) :
    Gathered branches assigned start [id] (gatherPrevious s x) ∧
      x ∈ (gatherPrevious s x).assigned ∧ s.assigned ⊆ (gatherPrevious s x).assigned ∧
      (gatherPrevious s x).pending.length + s.component.length =
        s.pending.length + (gatherPrevious s x).component.length ∧
      s.component ⊆ (gatherPrevious s x).component := by
  unfold gatherPrevious
  split
  · rename_i hx
    exact ⟨h, hx, fun y hy ↦ hy, rfl, fun y hy ↦ hy⟩
  rename_i hx
  have hnew : x ∉ assigned ∧ x ∉ s.component := by
    rw [h.known, not_or] at hx
    exact hx
  refine ⟨⟨List.nodup_cons.mpr ⟨hnew.2, h.nodup⟩, fun y ↦ ?_, ?_,
    List.mem_cons_of_mem x h.root, ?_, ?_, ?_, ?_⟩, List.mem_cons_self,
    List.subset_cons_self x _, ?_, List.subset_cons_self x _⟩
  · dsimp only
    rw [List.mem_cons, List.mem_cons, h.known]
    exact ⟨fun hy ↦ hy.elim (.inr ∘ .inl) fun hy ↦ hy.elim .inl (.inr ∘ .inr),
      fun hy ↦ hy.elim (.inr ∘ .inl) fun hy ↦ hy.elim .inl (.inr ∘ .inr)⟩
  · intro y hy
    rcases List.mem_cons.mp hy with rfl | hy
    · exact hnew.1
    · exact h.apart y hy
  · exact List.cons_subset.mpr ⟨hedge.mem.1, h.subset⟩
  · intro y hy
    rcases List.mem_cons.mp hy with rfl | hy
    · exact .head ⟨hedge, h.apart id hid⟩ (h.reach id hid)
    · exact h.reach y hy
  · exact List.cons_subset.mpr ⟨List.mem_cons_self,
      fun y hy ↦ List.mem_cons_of_mem x (h.pending hy)⟩
  · intro y hy
    rcases List.mem_cons.mp hy with rfl | hy
    · exact .inl List.mem_cons_self
    · rcases h.closed y hy with hy | hy | hy
      · exact .inl (List.mem_cons_of_mem x hy)
      · exact .inr (.inl hy)
      · exact .inr (.inr fun z hz ↦ List.mem_cons_of_mem x (hy z hz))
  · dsimp only
    rw [List.length_cons, List.length_cons]
    omega

theorem Gathered.previouses {l : List BlockId} (h : Gathered branches assigned start [id] s)
    (hid : id ∈ s.component) (hl : ∀ x ∈ l, ThreadEdge branches x id) :
    Gathered branches assigned start [id] (l.foldl gatherPrevious s) ∧
      (∀ x ∈ l, x ∈ (l.foldl gatherPrevious s).assigned) ∧
      s.assigned ⊆ (l.foldl gatherPrevious s).assigned ∧
      (l.foldl gatherPrevious s).pending.length + s.component.length =
        s.pending.length + (l.foldl gatherPrevious s).component.length := by
  induction l generalizing s with
  | nil => exact ⟨h, by simp, fun x hx ↦ hx, rfl⟩
  | cons x l ih =>
      obtain ⟨hnext, hx, hgrow, hlength, hsub⟩ := h.previous hid (hl x List.mem_cons_self)
      obtain ⟨hlast, hall, hgrow', hlength'⟩ := ih hnext (hsub hid)
        fun y hy ↦ hl y (List.mem_cons_of_mem x hy)
      rw [List.foldl_cons]
      refine ⟨hlast, fun y hy ↦ ?_, fun y hy ↦ hgrow' (hgrow hy), by omega⟩
      rcases List.mem_cons.mp hy with rfl | hy
      · exact hgrow' hx
      · exact hall y hy

/-- What is gathered at a branch block, with rounds for all of them. -/
theorem gatherThreads_spec (hstart : start ∉ assigned) (hmem : start ∈ threadIds branches) :
    ∃ component, gatherThreads branches assigned start = some component ∧
      Gathers (ThreadEdge branches) assigned start component := by
  have hlength : (threadIds branches).length ≤ branches.length :=
    (List.subperm_of_subset (sortedSet_nodup _) fun x hx ↦ mem_sortedSet.mp hx).length_le.trans
      (List.length_map _).le
  obtain ⟨s, hs, hgathered, hdone⟩ := whileLoop.terminates
    (fun s : Gathering ↦ !s.pending.isEmpty) (some ∘ gatherRound branches) (branches.length + 1) (I := Gathered branches assigned start [])
    (s := ⟨[start], start :: assigned, [start]⟩)
    (fun s ↦ s.pending.length + ((threadIds branches).length - s.component.length))
    (by
      intro s h hcond
      obtain ⟨pending, known, component⟩ := s
      cases pending with
      | nil => cases hcond
      | cons id pending =>
          have hid : id ∈ component := h.pending List.mem_cons_self
          have hpopped : Gathered branches assigned start [id] ⟨pending, known, component⟩ := by
            refine { h with
              pending := fun x hx ↦ h.pending (List.mem_cons_of_mem id hx)
              closed := fun y hy ↦ ?_ }
            rcases h.closed y hy with hy | hy | hy
            · rcases List.mem_cons.mp hy with rfl | hy
              · exact .inr (.inl (List.mem_singleton_self _))
              · exact .inl hy
            · cases hy
            · exact .inr (.inr hy)
          obtain ⟨hlast, hall, hgrow, hlen⟩ := hpopped.previouses hid
            fun x hx ↦ mem_threadPredecessors.mp hx
          refine ⟨_, rfl, { hlast with closed := fun y hy ↦ ?_ }, ?_⟩
          · rcases hlast.closed y hy with hy | hy | hy
            · exact .inl hy
            · obtain rfl := List.mem_singleton.mp hy
              exact .inr (.inr fun x hx ↦ hall x (mem_threadPredecessors.mpr hx))
            · exact .inr (.inr hy)
          · have hcomponent := (List.subperm_of_subset hlast.nodup hlast.subset).length_le
            dsimp only at hlen
            show ((threadPredecessors branches id).foldl gatherPrevious
              ⟨pending, known, component⟩).pending.length + ((threadIds branches).length -
                ((threadPredecessors branches id).foldl gatherPrevious
                  ⟨pending, known, component⟩).component.length) <
              pending.length + 1 + ((threadIds branches).length - component.length)
            omega) (Gathered.single hstart hmem) (by
      have hpos := List.length_pos_of_mem hmem
      simp only [List.length_cons, List.length_nil]
      omega)
  have hpending : s.pending = [] := by simpa using hdone
  refine ⟨s.component, by rw [gatherThreads, hs]; rfl,
    gathers_of_closed hgathered.nodup hgathered.root hgathered.apart hgathered.reach
      fun y hy x hedge ↦ ?_⟩
  rcases hgathered.closed y hy with hy | hy | hy
  · rw [hpending] at hy
    cases hy
  · cases hy
  · exact (hgathered.known x).mp (hy x hedge)

theorem sweep_threads_returns {finish : List BlockId} (hfinish : finish ⊆ threadIds branches)
    (assigned : List BlockId) :
    ∃ components, sweep (gatherThreads branches) assigned finish = some components := by
  induction finish generalizing assigned with
  | nil => exact ⟨[], rfl⟩
  | cons r finish ih =>
      have hrest := List.subset_of_cons_subset hfinish
      unfold sweep
      split
      · exact ih hrest assigned
      · rename_i hr
        obtain ⟨c, hc, -⟩ := gatherThreads_spec hr (hfinish List.mem_cons_self)
        obtain ⟨cs, hcs⟩ := ih hrest (c ++ assigned)
        exact ⟨(r, c) :: cs, by rw [hc, Option.bind_some, hcs]; rfl⟩

/-- The blocks left alone are found, and are those on cycles of branch blocks. -/
theorem cyclicBranchThreadTargets_exact (branches : List KirBlock) :
    ∃ cyclic, cyclicBranchThreadTargets branches = some cyclic ∧
      ∀ x, x ∈ cyclic ↔ TransGen (ThreadEdge branches) x x := by
  obtain ⟨finish, hfinish, horder, hids⟩ := threadFinish_spec branches
  have hknown : finish ⊆ threadIds branches := fun x hx ↦ (hids x).mp hx
  obtain ⟨components, hcomponents⟩ := sweep_threads_returns hknown []
  have hsource : ∀ x y, ThreadEdge branches x y → x ∈ finish := fun x y h ↦
    (hids x).mpr h.mem.1
  have hgather : ∀ assigned, ∀ r ∈ finish, ∀ c, r ∉ assigned →
      gatherThreads branches assigned r = some c → Gathers (ThreadEdge branches) assigned r c := by
    intro assigned r hfinish c hr hc
    obtain ⟨c', hc', hgathers⟩ := gatherThreads_spec hr ((hids r).mp hfinish)
    cases hc.symm.trans hc'
    exact hgathers
  obtain ⟨hspec, hall⟩ := sweep_spec hgather horder hsource hcomponents
  refine ⟨_, by rw [cyclicBranchThreadTargets, hfinish]; exact congrArg (Option.bind · _) hcomponents,
    fun x ↦ ?_⟩
  exact mem_cyclic_components (fun x ↦ decide (x ∈ threadSuccessors branches x)) hsource
    (fun x ↦ decide_eq_true_iff) hspec hall x

end Threads

end CalcKernel
