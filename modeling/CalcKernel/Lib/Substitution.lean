import Mathlib.Data.Finset.Card
import Mathlib.Data.List.Sort
import CalcKernel.Lib.Assoc
import CalcKernel.Lib.FlowGraph

/-!
# Ordered substitutions

Replacements that are carried out one after the other, and the table of what each element
becomes in the end.  Where every entry stands before that of its target the table leads to
the end of the chain of each element; an acyclic table can always be listed so.
-/

namespace CalcKernel.Lib

open Relation

universe u

variable {α : Type u} [DecidableEq α]

/-! ## One after the other -/

def replaceOne (v : α) (p : α × α) : α := if v = p.1 then p.2 else v

/-- Each replacement in turn. -/
def replaceInTurn (l : List (α × α)) (v : α) : α := l.foldl replaceOne v

/-- What a table does to an element. -/
def replaceBy (values : List (α × α)) (v : α) : α := (values.lookup v).getD v

/-- Carry a replacement over to the targets of a table, and add it unless there is one. -/
def compose (values : List (α × α)) (p : α × α) : List (α × α) :=
  let carried := values.map fun q ↦ (q.1, replaceOne q.2 p)
  if (carried.lookup p.1).isSome then carried else carried ++ [p]

theorem lookup_carried (values : List (α × α)) (p : α × α) (v : α) :
    (values.map fun q ↦ (q.1, replaceOne q.2 p)).lookup v =
      (values.lookup v).map (replaceOne · p) := by
  induction values with
  | nil => rfl
  | cons q values ih =>
      rw [List.map_cons, List.lookup_cons, List.lookup_cons]
      cases v == q.1 with
      | false => exact ih
      | true => rfl

theorem replaceBy_compose (values : List (α × α)) (p : α × α) (v : α) :
    replaceBy (compose values p) v = replaceOne (replaceBy values v) p := by
  unfold compose replaceBy
  dsimp only
  rw [lookup_carried]
  split
  · rename_i hsome
    rw [lookup_carried]
    cases hv : values.lookup v with
    | some w => rfl
    | none =>
        have hne : v ≠ p.1 := by
          rintro rfl
          simp [hv] at hsome
        exact (if_neg hne).symm
  · rename_i hnone
    rw [List.lookup_append, lookup_carried]
    cases hv : values.lookup v with
    | some w => rfl
    | none =>
        rw [Option.map_none, Option.none_or, List.lookup_cons, List.lookup_nil, Option.getD_none,
          replaceOne]
        by_cases h : v = p.1
        · simp [h]
        · have hbeq : (v == p.1) = false := beq_eq_false_iff_ne.mpr h
          rw [hbeq, if_neg h]
          rfl

/-- The composed table does what the replacements do one after the other. -/
theorem replaceBy_foldl_compose (l values : List (α × α)) (v : α) :
    replaceBy (l.foldl compose values) v = replaceInTurn l (replaceBy values v) := by
  induction l generalizing values with
  | nil => rfl
  | cons p l ih => rw [List.foldl_cons, ih, replaceBy_compose, replaceInTurn, replaceInTurn,
      List.foldl_cons]

/-! ## Chains -/

/-- From the first element the replacements lead to the second, which has none. -/
structure ChainEnd (l : List (α × α)) (v w : α) : Prop where
  chain : ReflTransGen (fun a b ↦ (a, b) ∈ l) v w
  last : w ∉ l.map Prod.fst

/-- The replacement of no element leads back to it. -/
def Acyclic (l : List (α × α)) : Prop := ∀ v, ¬ TransGen (fun a b ↦ (a, b) ∈ l) v v

/-- An entry stands before that of its target. -/
structure ChainOrdered (l : List (α × α)) : Prop where
  ne : ∀ p ∈ l, p.2 ≠ p.1
  before : l.Pairwise fun p q ↦ q.2 ≠ p.1

variable {l l' : List (α × α)} {v w w' : α}

theorem eq_of_mem_keys (hkeys : (l.map Prod.fst).Nodup) {a b c : α} (hb : (a, b) ∈ l)
    (hc : (a, c) ∈ l) : b = c :=
  Option.some.inj ((lookup_of_mem hkeys hb).symm.trans (lookup_of_mem hkeys hc))

/-- A chain has one end. -/
theorem ChainEnd.unique (hkeys : (l.map Prod.fst).Nodup) (h : ChainEnd l v w)
    (h' : ChainEnd l v w') : w = w' := by
  obtain ⟨hchain, hlast⟩ := h
  obtain ⟨hchain', hlast'⟩ := h'
  induction hchain using ReflTransGen.head_induction_on with
  | refl =>
      rcases hchain'.cases_head with heq | ⟨c, hc, -⟩
      · exact heq
      · exact absurd (List.mem_map_of_mem hc) hlast
  | head hstep _ ih =>
      rcases hchain'.cases_head with rfl | ⟨c, hc, hrest⟩
      · exact absurd (List.mem_map_of_mem hstep) hlast'
      · obtain rfl := eq_of_mem_keys hkeys hstep hc
        exact ih hrest

omit [DecidableEq α] in
theorem ChainEnd.perm (hperm : l.Perm l') (h : ChainEnd l v w) : ChainEnd l' v w where
  chain := weakenPath h.chain fun _ _ hmem ↦ hperm.mem_iff.mp hmem
  last := fun hmem ↦ h.last ((hperm.map Prod.fst).mem_iff.mpr hmem)

/-- Carried out in chain order, the replacements lead to the end of the chain. -/
theorem ChainOrdered.chainEnd (h : ChainOrdered l) (v : α) : ChainEnd l v (replaceInTurn l v) := by
  induction l generalizing v with
  | nil => exact ⟨.refl, List.not_mem_nil⟩
  | cons p l ih =>
      obtain ⟨hne, hbefore⟩ := h
      obtain ⟨hlater, hbefore⟩ := List.pairwise_cons.mp hbefore
      obtain ⟨hchain, hlast⟩ :=
        ih ⟨fun q hq ↦ hne q (List.mem_cons_of_mem _ hq), hbefore⟩ (replaceOne v p)
      have hmono := weakenPath hchain fun _ _ hmem ↦ List.mem_cons_of_mem p hmem
      have hfirst : replaceOne v p ≠ p.1 := by
        unfold replaceOne
        split
        · exact hne p List.mem_cons_self
        · assumption
      constructor
      · rw [replaceInTurn, List.foldl_cons]
        by_cases hv : v = p.1
        · refine .head (b := replaceOne v p) ?_ hmono
          rw [replaceOne, if_pos hv, hv]
          exact List.mem_cons_self
        · rw [replaceOne, if_neg hv] at hmono ⊢
          exact hmono
      · rw [replaceInTurn, List.foldl_cons, List.map_cons, List.mem_cons]
        rintro (heq | hmem)
        · -- the end is the element itself or the target of a later entry
          rcases hchain.cases_tail with hsame | ⟨c, -, hstep⟩
          · exact hfirst (hsame.symm.trans heq)
          · exact hlater _ hstep heq
        · exact hlast hmem

theorem replaceInTurn_of_notMem (h : v ∉ l.map Prod.fst) : replaceInTurn l v = v := by
  induction l with
  | nil => rfl
  | cons p l ih =>
      rw [List.map_cons, List.mem_cons, not_or] at h
      rw [replaceInTurn, List.foldl_cons, replaceOne, if_neg h.1]
      exact ih h.2

/-- Replacements with distinct keys lead to the ends of the chains in chain order only. -/
theorem chainOrdered_iff (hkeys : (l.map Prod.fst).Nodup) :
    ChainOrdered l ↔ ∀ v, ChainEnd l v (replaceInTurn l v) := by
  refine ⟨fun h v ↦ h.chainEnd v, fun h ↦ ?_⟩
  -- no later entry replaces a target whose entry has gone by
  have hsplit : ∀ pre q post, l = pre ++ q :: post → q.2 ∉ (pre ++ [q]).map Prod.fst := by
    rintro pre q post rfl hgone
    rw [List.append_cons, List.map_append] at hkeys
    obtain ⟨hpre, -, hdisjoint⟩ := List.nodup_append.mp hkeys
    have hend := h q.1
    have hfirst : q.1 ∉ pre.map Prod.fst := by
      rw [List.map_append] at hpre
      exact fun hmem ↦ (List.nodup_append.mp hpre).2.2 _ hmem q.1 (by simp) rfl
    have hresult : replaceInTurn (pre ++ q :: post) q.1 = q.2 := by
      have hbefore : pre.foldl replaceOne q.1 = q.1 := replaceInTurn_of_notMem hfirst
      rw [replaceInTurn, List.foldl_append, hbefore, List.foldl_cons, replaceOne, if_pos rfl]
      exact replaceInTurn_of_notMem fun hmem ↦ hdisjoint _ hgone _ hmem rfl
    refine hend.last ?_
    rw [hresult, List.append_cons, List.map_append]
    exact List.mem_append_left _ hgone
  constructor
  · intro p hp heq
    obtain ⟨pre, post, rfl⟩ := List.append_of_mem hp
    refine hsplit pre p post rfl ?_
    rw [heq]
    simp
  · rw [List.pairwise_iff_getElem]
    intro i j hi hj hij heq
    refine hsplit (l.take j) l[j] (l.drop (j + 1)) (by simp) ?_
    rw [heq, List.map_append]
    refine List.mem_append_left _ (List.mem_map_of_mem ?_)
    exact List.mem_take_iff_getElem.mpr ⟨i, by omega, rfl⟩

omit [DecidableEq α] in
/-- A table whose entries go up in some rank is acyclic. -/
theorem acyclic_of_rank (rank : α → Nat) (h : ∀ p ∈ l, rank p.1 < rank p.2) : Acyclic l := by
  intro v hcycle
  have hlt : ∀ {a b}, TransGen (fun a b ↦ (a, b) ∈ l) a b → rank a < rank b := by
    intro a b hpath
    induction hpath with
    | single hstep => exact h _ hstep
    | tail _ hstep ih => exact ih.trans (h _ hstep)
  exact lt_irrefl _ (hlt hcycle)

/-- An acyclic table can be listed in chain order. -/
theorem Acyclic.exists_ordered (h : Acyclic l) : ∃ l', l'.Perm l ∧ ChainOrdered l' := by
  classical
  -- an element is followed by more entries than the target of its entry
  let rank : α → Nat := fun v ↦
    (l.toFinset.filter fun p ↦ ReflTransGen (fun a b ↦ (a, b) ∈ l) v p.1).card
  have hrank : ∀ p ∈ l, rank p.2 < rank p.1 := by
    intro p hp
    refine Finset.card_lt_card ((Finset.ssubset_iff_of_subset ?_).mpr ⟨p, ?_, ?_⟩)
    · intro q hq
      obtain ⟨hmem, hpath⟩ := Finset.mem_filter.mp hq
      exact Finset.mem_filter.mpr ⟨hmem, .head hp hpath⟩
    · exact Finset.mem_filter.mpr ⟨List.mem_toFinset.mpr hp, .refl⟩
    · exact fun hq ↦ h p.1 (.head' hp (Finset.mem_filter.mp hq).2)
  let before : α × α → α × α → Prop := fun p q ↦ rank q.1 ≤ rank p.1
  have hperm : (l.insertionSort before).Perm l := List.perm_insertionSort before l
  refine ⟨l.insertionSort before, hperm, fun p hp heq ↦ ?_, ?_⟩
  · have hlt := hrank p (hperm.mem_iff.mp hp)
    rw [heq] at hlt
    exact lt_irrefl _ hlt
  · have : Std.Total before := ⟨fun p q ↦ le_total _ _⟩
    have : IsTrans (α × α) before := ⟨fun _ _ _ hpq hqr ↦ le_trans hqr hpq⟩
    refine (List.pairwise_insertionSort before l).imp_of_mem ?_
    intro p q hp hq hle heq
    have hlt := hrank q (hperm.mem_iff.mp hq)
    rw [heq] at hlt
    exact absurd hlt (not_lt.mpr hle)

end CalcKernel.Lib
