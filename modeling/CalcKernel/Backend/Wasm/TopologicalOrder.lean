import CalcKernel.Backend.Wasm.Control
import Mathlib.Data.List.Perm.Subperm
import Mathlib.Data.Fintype.EquivFin
import Mathlib.Order.WellFounded

/-!
# Topological order

`stable_topological_order` counts the edges left into every item.  It lists each item
after the sources of its edges, and all items when the edges have no cycle.
-/

namespace CalcKernel

open Relation

variable {items targets : List BlockId} {edges projected : List (BlockId × BlockId)}
  {order : BlockId → Option Nat} {d : BlockId → Nat} {ready : ReadySet} {x y : BlockId}

namespace ReadySet

theorem mem_insert {a p : Nat × BlockId} : p ∈ ready.insert a ↔ p = a ∨ p ∈ ready := by
  unfold ReadySet.insert
  split
  · rename_i ha
    constructor
    · exact Or.inr
    · rintro (rfl | hp)
      · exact ha
      · exact hp
  · exact List.mem_orderedInsert _

theorem nodup_insert {a : Nat × BlockId} (hnodup : (ready.map (·.2)).Nodup)
    (ha : a.2 ∉ ready.map (·.2)) : ((ready.insert a).map (·.2)).Nodup := by
  have hnot : a ∉ ready := fun hmem ↦ ha (List.mem_map_of_mem hmem)
  rw [ReadySet.insert, if_neg hnot, ((List.perm_orderedInsert _ a ready).map _).nodup_iff,
    List.map_cons, List.nodup_cons]
  exact ⟨ha, hnodup⟩

end ReadySet

/-- What taking the edges of one block away does to the counts and the ready blocks. -/
theorem releaseTargets_returns (horder : ∀ t ∈ targets, ∃ n, order t = some n)
    (hcount : ∀ t, targets.count t ≤ d t) (hready : ∀ p ∈ ready, d p.2 = 0)
    (hnodup : (ready.map (·.2)).Nodup) :
    ∃ d' ready', releaseTargets order targets d ready = some (d', ready') ∧
      (∀ t, d' t + targets.count t = d t) ∧ (ready'.map (·.2)).Nodup ∧
      ∀ t, t ∈ ready'.map (·.2) ↔ t ∈ ready.map (·.2) ∨ (t ∈ targets ∧ d' t = 0) := by
  induction targets generalizing d ready with
  | nil => exact ⟨d, ready, Eq.refl _, by simp, hnodup, by simp⟩
  | cons target targets ih =>
      have hpos := hcount target
      rw [List.count_cons_self] at hpos
      obtain ⟨n, hn⟩ : ∃ n, d target = n + 1 := ⟨d target - 1, by omega⟩
      have hother : ∀ t, t ≠ target → (target :: targets).count t = targets.count t :=
        fun t ht ↦ List.count_cons_of_ne (Ne.symm ht)
      have hcount' : ∀ t, targets.count t ≤ Function.update d target n t := by
        intro t
        by_cases ht : t = target
        · subst ht
          rw [Function.update_self]
          omega
        · rw [Function.update_of_ne ht, ← hother t ht]
          exact hcount t
      have htargetNotReady : target ∉ ready.map (·.2) := by
        intro hmem
        obtain ⟨p, hp, rfl⟩ := List.mem_map.mp hmem
        have := hready p hp
        omega
      have hready' : ∀ p ∈ ready, Function.update d target n p.2 = 0 := by
        intro p hp
        have hne : p.2 ≠ target := by
          rintro rfl
          exact htargetNotReady (List.mem_map_of_mem hp)
        rw [Function.update_of_ne hne]
        exact hready p hp
      have htotal : ∀ {d' : BlockId → Nat},
          (∀ t, d' t + targets.count t = Function.update d target n t) →
            ∀ t, d' t + (target :: targets).count t = d t := by
        intro d' hd' t
        by_cases ht : t = target
        · subst ht
          have := hd' t
          rw [Function.update_self] at this
          rw [List.count_cons_self]
          omega
        · rw [hother t ht, hd' t, Function.update_of_ne ht]
      rw [releaseTargets, hn]
      dsimp only
      by_cases hzero : n = 0
      · obtain ⟨ordinal, hordinal⟩ := horder target List.mem_cons_self
        rw [if_pos hzero, hordinal, Option.bind_eq_bind, Option.bind_some]
        have hreadyInsert : ∀ p ∈ ready.insert (ordinal, target),
            Function.update d target n p.2 = 0 := by
          intro p hp
          rcases ReadySet.mem_insert.mp hp with rfl | hp
          · rw [Function.update_self]
            exact hzero
          · exact hready' p hp
        obtain ⟨d', ready', hres, hd', hnodup', hmem⟩ := ih
          (fun t ht ↦ horder t (List.mem_cons_of_mem _ ht)) hcount' hreadyInsert
          (ReadySet.nodup_insert hnodup htargetNotReady)
        refine ⟨d', ready', hres, htotal hd', hnodup', fun t ↦ ?_⟩
        have htarget : d' target = 0 := by
          have := hd' target
          rw [Function.update_self] at this
          omega
        have hinserted : t ∈ (ready.insert (ordinal, target)).map (·.2) ↔
            t = target ∨ t ∈ ready.map (·.2) := by
          simp only [List.mem_map, ReadySet.mem_insert]
          constructor
          · rintro ⟨p, rfl | hp, rfl⟩
            · exact Or.inl (Eq.refl _)
            · exact Or.inr ⟨p, hp, Eq.refl _⟩
          · rintro (rfl | ⟨p, hp, rfl⟩)
            · exact ⟨_, Or.inl (Eq.refl _), Eq.refl _⟩
            · exact ⟨p, Or.inr hp, Eq.refl _⟩
        rw [hmem, hinserted, List.mem_cons]
        constructor
        · rintro ((rfl | ht) | ⟨ht, hd⟩)
          · exact Or.inr ⟨Or.inl (Eq.refl _), htarget⟩
          · exact Or.inl ht
          · exact Or.inr ⟨Or.inr ht, hd⟩
        · rintro (ht | ⟨rfl | ht, hd⟩)
          · exact Or.inl (Or.inr ht)
          · exact Or.inl (Or.inl (Eq.refl _))
          · exact Or.inr ⟨ht, hd⟩
      · rw [if_neg hzero]
        obtain ⟨d', ready', hres, hd', hnodup', hmem⟩ := ih
          (fun t ht ↦ horder t (List.mem_cons_of_mem _ ht)) hcount' hready' hnodup
        refine ⟨d', ready', hres, htotal hd', hnodup', fun t ↦ ?_⟩
        rw [hmem, List.mem_cons]
        constructor
        · rintro (ht | ⟨ht, hd⟩)
          · exact Or.inl ht
          · exact Or.inr ⟨Or.inr ht, hd⟩
        · rintro (ht | ⟨rfl | ht, hd⟩)
          · exact Or.inl ht
          · -- a count that is not yet zero reaches zero at a later edge
            refine Or.inr ⟨?_, hd⟩
            have := hd' t
            rw [Function.update_self, hd] at this
            exact List.count_pos_iff.mp (by omega)
          · exact Or.inr ⟨ht, hd⟩

/-- The edges into an item whose source is not yet sorted. -/
def indegreeLeft (edges : List (BlockId × BlockId)) (sorted : List BlockId) (x : BlockId) : Nat :=
  edges.countP fun e ↦ e.2 = x ∧ e.1 ∉ sorted

theorem indegreeLeft_split (edges : List (BlockId × BlockId)) {sorted : List BlockId}
    (hx : x ∉ sorted) (t : BlockId) :
    indegreeLeft edges (sorted ++ [x]) t + ((edges.filter (·.1 = x)).map (·.2)).count t =
      indegreeLeft edges sorted t := by
  unfold indegreeLeft
  simp only [List.mem_append, List.mem_singleton]
  induction edges with
  | nil => simp
  | cons e edges ih =>
      obtain ⟨a, b⟩ := e
      rw [List.countP_cons, List.countP_cons, List.filter_cons]
      by_cases ha : a = x
      · subst ha
        by_cases hb : b = t
        · subst hb
          simp only [hx, or_true, not_true, and_false, decide_true, if_true, List.map_cons,
            List.count_cons_self, not_false_iff, and_self, decide_false, Bool.false_eq_true,
            if_false]
          omega
        · simp only [hb, false_and, decide_false, Bool.false_eq_true, if_false, decide_true,
            if_true, List.map_cons, List.count_cons_of_ne hb]
          omega
      · simp only [ha, or_false, decide_false, Bool.false_eq_true, if_false]
        omega

theorem indegreeLeft_eq_zero {sorted : List BlockId} :
    indegreeLeft edges sorted x = 0 ↔ ∀ y, (y, x) ∈ edges → y ∈ sorted := by
  unfold indegreeLeft
  rw [List.countP_eq_zero]
  constructor
  · intro h y hy
    have hnot := h (y, x) hy
    simpa using hnot
  · rintro h ⟨y, z⟩ hy
    simp only [decide_eq_true_eq, not_and, not_not]
    rintro rfl
    exact h y hy

/-- What holds between two rounds of the sort. -/
structure SortInvariant (items : List BlockId) (edges : List (BlockId × BlockId))
    (s : SortState) : Prop where
  nodup : (s.sorted ++ s.ready.map (·.2)).Nodup
  subset : ∀ t ∈ s.sorted ++ s.ready.map (·.2), t ∈ items
  indegrees : ∀ t, s.indegrees t = indegreeLeft edges s.sorted t
  zero : ∀ t ∈ items, s.indegrees t = 0 ↔ t ∈ s.sorted ++ s.ready.map (·.2)
  ordered : s.sorted.Pairwise fun a b ↦ (b, a) ∉ edges

theorem SortInvariant.round {s : SortState} (hedges : ∀ e ∈ edges, e.1 ∈ items ∧ e.2 ∈ items)
    (horder : ∀ t ∈ items, ∃ n, order t = some n) (hinv : SortInvariant items edges s)
    (hready : s.ready ≠ []) :
    ∃ t, sortStep edges order s = some t ∧ SortInvariant items edges t ∧
      items.length - t.sorted.length < items.length - s.sorted.length := by
  obtain ⟨indegrees, ready, sorted⟩ := s
  cases ready with
  | nil => exact absurd (Eq.refl _) hready
  | cons p ready =>
      obtain ⟨ordinal, x⟩ := p
      obtain ⟨hnodup, hitems, hindegrees, hzero, hordered⟩ := hinv
      dsimp only at hnodup hitems hindegrees hzero hordered
      rw [List.map_cons] at hnodup hitems hzero
      obtain ⟨hsortedNodup, hreadyNodup, hdisj⟩ := List.nodup_append.mp hnodup
      rw [List.nodup_cons] at hreadyNodup
      have hxSorted : x ∉ sorted := fun h ↦ hdisj x h x List.mem_cons_self (Eq.refl _)
      have hxItem : x ∈ items := hitems x (List.mem_append_right _ List.mem_cons_self)
      have hsplit := fun t ↦ indegreeLeft_split edges hxSorted t
      have htargets : ∀ t ∈ (edges.filter (·.1 = x)).map (·.2), ∃ n, order t = some n := by
        intro t ht
        obtain ⟨e, he, rfl⟩ := List.mem_map.mp ht
        exact horder e.2 (hedges e (List.mem_of_mem_filter he)).2
      obtain ⟨d', ready', hres, hd', hnodup', hmem⟩ := releaseTargets_returns (d := indegrees) htargets
        (fun t ↦ by
          rw [hindegrees t, ← hsplit t]
          omega)
        (fun p hp ↦ (hzero p.2 (hitems p.2 (List.mem_append_right _ (List.mem_cons_of_mem _
          (List.mem_map_of_mem hp))))).mpr (List.mem_append_right _ (List.mem_cons_of_mem _
          (List.mem_map_of_mem hp))))
        hreadyNodup.2
      have hd'Left : ∀ t, d' t = indegreeLeft edges (sorted ++ [x]) t := by
        intro t
        have h₁ := hd' t
        have h₂ := hsplit t
        rw [hindegrees t] at h₁
        omega
      -- the sorted and the ready items have no edges left
      have hdone : ∀ t ∈ sorted ++ x :: ready.map (·.2), d' t = 0 := by
        intro t ht
        have h₁ := hd' t
        rw [(hzero t (hitems t ht)).mpr ht] at h₁
        omega
      have hnew : ∀ t ∈ (edges.filter (·.1 = x)).map (·.2), t ∉ sorted ++ x :: ready.map (·.2) := by
        intro t ht hmem'
        have h₁ := hd' t
        rw [(hzero t (hitems t hmem')).mpr hmem'] at h₁
        have := List.count_pos_iff.mpr ht
        omega
      refine ⟨⟨d', ready', sorted ++ [x]⟩, ?_, ⟨?_, ?_, hd'Left, ?_, ?_⟩, ?_⟩
      · simp only [sortStep, hres, Option.bind_eq_bind, Option.bind_some]
      · rw [List.append_assoc, List.singleton_append]
        refine List.nodup_append.mpr ⟨hsortedNodup, List.nodup_cons.mpr ⟨fun h ↦ ?_, hnodup'⟩,
          fun a ha b hb hab ↦ ?_⟩
        · rcases (hmem x).mp h with h | ⟨h, _⟩
          · exact hreadyNodup.1 h
          · exact hnew x h (List.mem_append_right _ List.mem_cons_self)
        · subst hab
          rcases List.mem_cons.mp hb with rfl | hb
          · exact hxSorted ha
          · rcases (hmem a).mp hb with h | ⟨h, _⟩
            · exact hdisj a ha a (List.mem_cons_of_mem _ h) (Eq.refl _)
            · exact hnew a h (List.mem_append_left _ ha)
      · intro t ht
        rw [List.append_assoc, List.singleton_append, List.mem_append, List.mem_cons, hmem] at ht
        rcases ht with ht | rfl | ht | ⟨ht, _⟩
        · exact hitems t (List.mem_append_left _ ht)
        · exact hxItem
        · exact hitems t (List.mem_append_right _ (List.mem_cons_of_mem _ ht))
        · obtain ⟨e, he, rfl⟩ := List.mem_map.mp ht
          exact (hedges e (List.mem_of_mem_filter he)).2
      · intro t ht
        dsimp only
        rw [List.append_assoc, List.singleton_append, List.mem_append, List.mem_cons, hmem]
        constructor
        · intro hd
          by_cases htarget : t ∈ (edges.filter (·.1 = x)).map (·.2)
          · exact Or.inr (Or.inr (Or.inr ⟨htarget, hd⟩))
          · have h₁ := hd' t
            rw [hd, List.count_eq_zero.mpr htarget] at h₁
            rcases List.mem_append.mp ((hzero t ht).mp h₁.symm) with h | h
            · exact Or.inl h
            · rcases List.mem_cons.mp h with h | h
              · exact Or.inr (Or.inl h)
              · exact Or.inr (Or.inr (Or.inl h))
        · rintro (h | rfl | h | ⟨_, h⟩)
          · exact hdone t (List.mem_append_left _ h)
          · exact hdone t (List.mem_append_right _ List.mem_cons_self)
          · exact hdone t (List.mem_append_right _ (List.mem_cons_of_mem _ h))
          · exact h
      · refine List.pairwise_append.mpr ⟨hordered, List.pairwise_singleton _ _, fun a ha b hb hab ↦ ?_⟩
        obtain rfl := List.mem_singleton.mp hb
        have hzeroA := (hzero a (hitems a (List.mem_append_left _ ha))).mpr
          (List.mem_append_left _ ha)
        rw [hindegrees a] at hzeroA
        exact hxSorted (indegreeLeft_eq_zero.mp hzeroA b hab)
      · have hle : (sorted ++ [x]).length ≤ items.length := by
          refine (List.subperm_of_subset ?_ fun t ht ↦ ?_).length_le
          · refine List.nodup_append.mpr ⟨hsortedNodup, List.nodup_singleton _, fun a ha b hb hab ↦ ?_⟩
            rw [hab, List.mem_singleton.mp hb] at ha
            exact hxSorted ha
          · rcases List.mem_append.mp ht with ht | ht
            · exact hitems t (List.mem_append_left _ ht)
            · rw [List.mem_singleton.mp ht]
              exact hxItem
        dsimp only
        rw [List.length_append, List.length_singleton] at hle ⊢
        omega

/-- The edges that are counted. -/
def properEdges (projected : List (BlockId × BlockId)) : List (BlockId × BlockId) :=
  projected.filter fun e ↦ e.1 ≠ e.2

theorem mem_properEdges : (x, y) ∈ properEdges projected ↔ (x, y) ∈ projected ∧ x ≠ y := by
  simp [properEdges]

/-- An order of some of the items: each comes after the sources of its edges, and an item
that is left out has an edge from another that is. -/
structure SortedItems (items : List BlockId) (edges : List (BlockId × BlockId))
    (sorted : List BlockId) : Prop where
  nodup : sorted.Nodup
  subset : ∀ t ∈ sorted, t ∈ items
  ordered : sorted.Pairwise fun a b ↦ (b, a) ∉ edges
  closed : ∀ t ∈ sorted, ∀ y, (y, t) ∈ edges → y ∈ sorted
  stuck : ∀ t ∈ items, t ∉ sorted → ∃ y ∈ items, y ∉ sorted ∧ (y, t) ∈ edges

theorem mem_foldl_insert {l : List (Nat × BlockId)} {ready : ReadySet} {p : Nat × BlockId} :
    p ∈ l.foldl ReadySet.insert ready ↔ p ∈ l ∨ p ∈ ready := by
  induction l generalizing ready with
  | nil => simp
  | cons a l ih =>
      rw [List.foldl_cons, ih, ReadySet.mem_insert, List.mem_cons]
      constructor
      · rintro (h | h | h)
        · exact Or.inl (Or.inr h)
        · exact Or.inl (Or.inl h)
        · exact Or.inr h
      · rintro ((h | h) | h)
        · exact Or.inr (Or.inl h)
        · exact Or.inl h
        · exact Or.inr (Or.inr h)

theorem nodup_foldl_insert {l : List (Nat × BlockId)} {ready : ReadySet}
    (hl : (l.map (·.2)).Nodup) (hready : (ready.map (·.2)).Nodup)
    (hdisj : ∀ p ∈ l, p.2 ∉ ready.map (·.2)) :
    ((l.foldl ReadySet.insert ready).map (·.2)).Nodup := by
  induction l generalizing ready with
  | nil => exact hready
  | cons a l ih =>
      rw [List.map_cons, List.nodup_cons] at hl
      rw [List.foldl_cons]
      refine ih hl.2 (ReadySet.nodup_insert hready (hdisj a List.mem_cons_self)) fun p hp hmem ↦ ?_
      obtain ⟨q, hq, hqp⟩ := List.mem_map.mp hmem
      rcases ReadySet.mem_insert.mp hq with rfl | hq
      · exact hl.1 (hqp ▸ List.mem_map_of_mem hp)
      · exact hdisj p (List.mem_cons_of_mem _ hp) (hqp ▸ List.mem_map_of_mem hq)

theorem stableTopologicalOrder_spec (hitems : items.Nodup)
    (horder : ∀ t ∈ items, ∃ n, order t = some n)
    (hedges : ∀ e ∈ projected, e.1 ∈ items ∧ e.2 ∈ items) :
    ∃ sorted, SortedItems items (properEdges projected) sorted ∧
      stableTopologicalOrder items projected order =
        if sorted.length = items.length then some sorted else none := by
  have hproper : ∀ e ∈ properEdges projected, e.1 ∈ items ∧ e.2 ∈ items := fun e he ↦
    hedges e (List.mem_of_mem_filter he)
  obtain ⟨start, hstart, hall⟩ := Lib.mapM_option_returns
    (g := fun item ↦ (order item).map (·, item)) (R := fun item (p : Nat × BlockId) ↦ item = p.2)
    (l := items.filter fun item ↦ (properEdges projected).countP (fun e ↦ e.2 = item) = 0)
    (fun item hitem ↦ by
      obtain ⟨n, hn⟩ := horder item (List.mem_of_mem_filter hitem)
      exact ⟨(n, item), by rw [hn]; exact Eq.refl _, Eq.refl _⟩)
  have hstartItems : start.map (·.2) =
      items.filter fun item ↦ (properEdges projected).countP (fun e ↦ e.2 = item) = 0 := by
    rw [← List.forall₂_eq_eq_eq, List.forall₂_map_left_iff]
    exact (hall.imp fun _ _ h ↦ h.symm ▸ Eq.refl _).flip
  have hreadyMem : ∀ t, t ∈ (start.foldl ReadySet.insert []).map (·.2) ↔
      t ∈ items ∧ (properEdges projected).countP (fun e ↦ e.2 = t) = 0 := by
    intro t
    have hsame : t ∈ (start.foldl ReadySet.insert []).map (·.2) ↔ t ∈ start.map (·.2) := by
      simp only [List.mem_map, mem_foldl_insert, List.not_mem_nil, or_false]
    rw [hsame, hstartItems, List.mem_filter, decide_eq_true_eq]
  have hinv : SortInvariant items (properEdges projected)
      ⟨fun item ↦ (properEdges projected).countP fun e ↦ e.2 = item,
        start.foldl ReadySet.insert [], []⟩ := by
    refine ⟨?_, ?_, fun t ↦ ?_, fun t ht ↦ ?_, List.Pairwise.nil⟩
    · rw [List.nil_append]
      refine nodup_foldl_insert ?_ (by simp) (by simp)
      rw [hstartItems]
      exact hitems.filter _
    · intro t ht
      exact ((hreadyMem t).mp ht).1
    · simp [indegreeLeft]
    · dsimp only
      rw [List.nil_append, hreadyMem]
      exact ⟨fun h ↦ ⟨ht, h⟩, fun h ↦ h.2⟩
  obtain ⟨s, hloop, hinv, hdone⟩ := Lib.whileLoop.terminates (fun s : SortState ↦ !s.ready.isEmpty)
    (sortStep (properEdges projected) order) items.length
    (I := SortInvariant items (properEdges projected))
    (fun s ↦ items.length - s.sorted.length)
    (fun s hinv hcond ↦ hinv.round hproper horder (by simpa using hcond)) hinv (by simp)
  have hempty : s.ready = [] := by simpa using hdone
  obtain ⟨hnodup, hsubset, hindegrees, hzero, hordered⟩ := hinv
  rw [hempty, List.map_nil, List.append_nil] at hnodup hsubset
  simp only [hempty, List.map_nil, List.append_nil] at hzero
  refine ⟨s.sorted, ⟨hnodup, hsubset, hordered, fun t ht ↦ ?_, fun t ht hnot ↦ ?_⟩, ?_⟩
  · have h := (hzero t (hsubset t ht)).mpr ht
    rw [hindegrees] at h
    exact indegreeLeft_eq_zero.mp h
  · have h := mt (hzero t ht).mp hnot
    rw [hindegrees, indegreeLeft_eq_zero] at h
    push Not at h
    obtain ⟨y, hy, hySorted⟩ := h
    exact ⟨y, (hproper _ hy).1, hySorted, hy⟩
  · unfold stableTopologicalOrder
    have hcheck : (properEdges projected).all
        (fun e ↦ items.contains e.1 && items.contains e.2) = true := by
      rw [List.all_eq_true]
      intro e he
      simpa using hproper e he
    dsimp only
    rw [← properEdges, if_pos hcheck, hstart, Option.bind_eq_bind, Option.bind_some]
    rw [hloop, Option.bind_eq_bind, Option.bind_some]

/-- Without a cycle nothing is left out. -/
theorem SortedItems.complete {sorted : List BlockId} (h : SortedItems items edges sorted)
    (hacyclic : ∀ t ∈ items, ¬ TransGen (fun a b ↦ (a, b) ∈ edges) t t) :
    ∀ t ∈ items, t ∈ sorted := by
  by_contra hsome
  push Not at hsome
  obtain ⟨t, ht, hnot⟩ := hsome
  let R : {t // t ∈ items} → {t // t ∈ items} → Prop := fun a b ↦
    TransGen (fun a b ↦ (a, b) ∈ edges) a.1 b.1
  have : IsTrans {t // t ∈ items} R := ⟨fun _ _ _ hab hbc ↦ TransGen.trans hab hbc⟩
  have : Std.Irrefl R := ⟨fun a ha ↦ hacyclic a.1 a.2 ha⟩
  have hwf : WellFounded R := Finite.wellFounded_of_trans_of_irrefl R
  obtain ⟨m, hm, hmin⟩ := hwf.has_min {t | t.1 ∉ sorted} ⟨⟨t, ht⟩, hnot⟩
  obtain ⟨y, hy, hySorted, hedge⟩ := h.stuck m.1 m.2 hm
  exact hmin ⟨y, hy⟩ hySorted (TransGen.single hedge)

theorem SortedItems.length_eq {sorted : List BlockId} (h : SortedItems items edges sorted)
    (hitems : items.Nodup) : sorted.length = items.length ↔ ∀ t ∈ items, t ∈ sorted := by
  constructor
  · intro hlen t ht
    have hperm := (List.subperm_of_subset h.nodup h.subset).perm_of_length_le hlen.ge
    exact hperm.mem_iff.mpr ht
  · intro hall
    exact Nat.le_antisymm (List.subperm_of_subset h.nodup h.subset).length_le
      (List.subperm_of_subset hitems hall).length_le

/-- An item that alone has no edges to it comes first. -/
theorem SortedItems.head_eq {sorted : List BlockId} (h : SortedItems items edges sorted)
    (hall : ∀ t ∈ items, t ∈ sorted) (hx : x ∈ items) (hne : ∀ a, (a, a) ∉ edges)
    (hothers : ∀ t ∈ items, t ≠ x → ∃ y, (y, t) ∈ edges) : sorted.head? = some x := by
  have hxSorted := hall x hx
  cases sorted with
  | nil => cases hxSorted
  | cons a sorted =>
      by_cases hax : a = x
      · rw [hax, List.head?_cons]
      · obtain ⟨y, hy⟩ := hothers a (h.subset a List.mem_cons_self) hax
        rcases List.mem_cons.mp (h.closed a List.mem_cons_self y hy) with rfl | hmem
        · exact absurd hy (hne y)
        · exact absurd hy ((List.pairwise_cons.mp h.ordered).1 y hmem)

end CalcKernel
