import CalcKernel.Optimizer.ContractFacts
import CalcKernel.Lib.Loop
import Mathlib.Data.List.Range

/-!
# Records stay in their scopes

Instances and facts are numbered in order, and every fact is a leaf of one instance, in
the scope of that instance.  Imports, rebuilds and clones keep this.  A rebuild keeps
what is live, and what it was cloned from, and takes away blocks that have gone.
-/

namespace CalcKernel

open Lib

/-! ## Appending leaves -/

/-- Trusted facts of one instance, numbered from a start on. -/
def leaves (generation : Nat) (instance_ : ContractInstanceId) (start : Nat) :
    List (FactScope × FactPredicate) → List Fact
  | [] => []
  | (scope, predicate) :: rest =>
      ⟨start, .trustedContract instance_, scope, predicate, .trustedContractLeaf, generation⟩ ::
        leaves generation instance_ (start + 1) rest

/-- An arena with more facts behind. -/
def FactArena.extend (arena : FactArena) (instance_ : ContractInstanceId)
    (l : List (FactScope × FactPredicate)) : FactArena :=
  { arena with facts := arena.facts ++ leaves arena.generation instance_ arena.facts.length l }

section Leaves

variable {generation start : Nat} {instance_ : ContractInstanceId} {arena : FactArena}

@[simp] theorem length_leaves (l : List (FactScope × FactPredicate)) :
    (leaves generation instance_ start l).length = l.length := by
  induction l generalizing start with
  | nil => rfl
  | cons p l ih => rw [leaves, List.length_cons, ih, List.length_cons]

theorem getElem?_leaves (l : List (FactScope × FactPredicate)) (k : Nat) :
    (leaves generation instance_ start l)[k]? = (l[k]?).map fun p ↦
      ⟨start + k, .trustedContract instance_, p.1, p.2, .trustedContractLeaf, generation⟩ := by
  induction l generalizing start k with
  | nil => simp [leaves]
  | cons p l ih =>
      cases k with
      | zero => rfl
      | succ k =>
          rw [leaves, List.getElem?_cons_succ, ih, List.getElem?_cons_succ, Nat.add_assoc,
            Nat.add_comm 1 k]

@[simp] theorem FactArena.length_extend (l : List (FactScope × FactPredicate)) :
    (arena.extend instance_ l).facts.length = arena.facts.length + l.length := by
  rw [extend, List.length_append, length_leaves]

theorem FactArena.extend_nil : arena.extend instance_ [] = arena := by
  rw [extend, leaves, List.append_nil]

theorem FactArena.extend_cons (p : FactScope × FactPredicate)
    (l : List (FactScope × FactPredicate)) :
    arena.extend instance_ (p :: l) = (arena.extend instance_ [p]).extend instance_ l := by
  simp only [extend, leaves, List.append_assoc, List.singleton_append, List.length_append,
    List.length_singleton]

theorem FactArena.get_extend {id : FactId} (h : id < arena.facts.length)
    (l : List (FactScope × FactPredicate)) :
    (arena.extend instance_ l).get id = arena.get id :=
  List.getElem?_append_left h

/-- The leaves of an extended arena. -/
theorem FactArena.get_leaf (l : List (FactScope × FactPredicate)) (k : Nat) :
    (arena.extend instance_ l).get (arena.facts.length + k) = (l[k]?).map fun p ↦
      ⟨arena.facts.length + k, .trustedContract instance_, p.1, p.2, .trustedContractLeaf,
        arena.generation⟩ := by
  rw [get, extend, List.getElem?_append_right (Nat.le_add_right _ _), Nat.add_sub_cancel_left,
    getElem?_leaves]

theorem FactArena.tryInsert_leaf (h : arena.facts.length < arenaIdentities) (scope : FactScope)
    (predicate : FactPredicate) :
    arena.tryInsert (.trustedContract instance_) scope predicate .trustedContractLeaf =
      .ok (arena.facts.length, arena.extend instance_ [(scope, predicate)]) :=
  if_pos h

/-- Leaves inserted one after another are numbered in order. -/
theorem foldlM_tryInsert {α : Type}
    {insert : List FactId × FactArena → α → Except String (List FactId × FactArena)} {l : List α}
    {ps : List (FactScope × FactPredicate)}
    (hinsert : List.Forall₂ (fun a p ↦ ∀ ids arena, insert (ids, arena) a =
      (arena.tryInsert (.trustedContract instance_) p.1 p.2 .trustedContractLeaf).map
        fun (id, arena) ↦ (ids ++ [id], arena)) l ps)
    (ids : List FactId) (arena : FactArena)
    (hlength : arena.facts.length + ps.length ≤ arenaIdentities) :
    l.foldlM insert (ids, arena) = .ok (ids ++ List.range' arena.facts.length ps.length,
      arena.extend instance_ ps) := by
  induction hinsert generalizing ids arena with
  | nil =>
      rw [List.foldlM_nil, List.length_nil, List.range'_zero, List.append_nil,
        FactArena.extend_nil]
      rfl
  | @cons a p l ps ha _ ih =>
      rw [List.length_cons] at hlength
      rw [List.foldlM_cons, ha, FactArena.tryInsert_leaf (by omega) p.1 p.2]
      refine (ih _ _ ?_).trans ?_
      · rw [FactArena.length_extend, List.length_singleton]
        omega
      · rw [FactArena.length_extend, List.length_singleton, List.length_cons, List.range'_succ,
          FactArena.extend_cons p ps, List.append_assoc]
        rfl

end Leaves

namespace ContractFactSet

variable {set : ContractFactSet}

theorem insertLeaves_eq (arena : FactArena) (instance_ : ContractInstanceId) (scope : FactScope)
    (predicates : List FactPredicate)
    (hlength : arena.facts.length + predicates.length ≤ arenaIdentities) :
    insertLeaves arena instance_ scope predicates =
      .ok (List.range' arena.facts.length predicates.length,
        arena.extend instance_ (predicates.map fun predicate ↦ (scope, predicate))) := by
  have hlength' : (predicates.map fun predicate ↦ (scope, predicate)).length =
      predicates.length := List.length_map _
  rw [← hlength'] at hlength ⊢
  refine foldlM_tryInsert ?_ [] arena hlength
  exact List.forall₂_map_right_iff.mpr (List.forall₂_same.mpr fun _ _ _ _ ↦ rfl)

end ContractFactSet

/-! ## Sets in order -/

/-- The scopes that the facts of an instance have. -/
def ContractFactInstance.Scopes (a : ContractFactInstance) : FactScope → Prop
  | .functionEntry function => a.source = .functionEntry ∧ function = a.callee
  | .calleeInstance instance_ callee =>
      (∃ caller block instruction, a.source = .call caller block instruction) ∧
        instance_ = a.id ∧ callee = a.callee
  | .inlineClone function clone blocks =>
      (∃ source, a.source = .inlineClone source function clone) ∧ blocks.Pairwise (· ≤ ·)
  | .block _ _ => False

/-- Instances and facts are numbered in order, facts are leaves of their instance in its scope, and
a clone comes after what it was cloned from. -/
structure ContractFactSet.Ordered (set : ContractFactSet) : Prop where
  ids : set.instances.map (·.id) = List.range set.instances.length
  facts : set.instances.flatMap (·.facts) = List.range set.facts.facts.length
  records : ∀ a ∈ set.instances, ∀ id ∈ a.facts, ∃ fact, set.facts.get id = some fact ∧
    fact.origin = .trustedContract a.id ∧ fact.derivation = .trustedContractLeaf ∧
      a.Scopes fact.scope
  sources : ∀ a ∈ set.instances, ∀ source ∈ a.ancestors, source < a.id
  instances_le : set.instances.length ≤ arenaIdentities
  facts_le : set.facts.facts.length ≤ arenaIdentities

namespace ContractFactSet.Ordered

variable {set : ContractFactSet}

theorem getElem?_id (h : set.Ordered) {k : Nat} {a : ContractFactInstance}
    (ha : set.instances[k]? = some a) : a.id = k := by
  have hid := congrArg (·[k]?) h.ids
  simp only [List.getElem?_map, ha, Option.map_some] at hid
  obtain ⟨hlt, -⟩ := List.getElem?_eq_some_iff.mp ha
  rw [List.getElem?_range hlt] at hid
  exact Option.some.inj hid

theorem instance?_eq (h : set.Ordered) (id : ContractInstanceId) :
    set.instance? id = set.instances[id]? := by
  unfold instance?
  cases ha : set.instances[id]? with
  | none => rfl
  | some a => rw [Option.filter_some, if_pos (decide_eq_true (h.getElem?_id ha))]

theorem instance?_of_mem (h : set.Ordered) {a : ContractFactInstance} (ha : a ∈ set.instances) :
    set.instance? a.id = some a := by
  obtain ⟨k, hk⟩ := List.getElem?_of_mem ha
  rw [h.instance?_eq, h.getElem?_id hk, hk]

theorem fact_lt (h : set.Ordered) {a : ContractFactInstance} (ha : a ∈ set.instances) {id : FactId}
    (hid : id ∈ a.facts) : id < set.facts.facts.length := by
  have hmem := List.mem_flatMap.mpr ⟨a, ha, hid⟩
  rw [h.facts] at hmem
  exact List.mem_range.mp hmem

theorem empty (generation : Nat) : (⟨⟨generation, []⟩, []⟩ : ContractFactSet).Ordered where
  ids := rfl
  facts := rfl
  records _ ha := (List.not_mem_nil ha).elim
  sources _ ha := (List.not_mem_nil ha).elim
  instances_le := Nat.zero_le _
  facts_le := Nat.zero_le _

/-- An instance appended with its own leaves. -/
theorem append (h : set.Ordered) {callee : FunctionId} {source : ContractInstanceSource}
    {bindings : List ContractFactBinding} {l : List (FactScope × FactPredicate)}
    (hlength : set.instances.length < arenaIdentities)
    (hfacts : set.facts.facts.length + l.length ≤ arenaIdentities)
    (hscopes : ∀ p ∈ l, ContractFactInstance.Scopes ⟨set.instances.length, callee, source, bindings,
      List.range' set.facts.facts.length l.length⟩ p.1)
    (hsources : ∀ origin function clone, source = .inlineClone origin function clone →
      origin < set.instances.length) :
    ContractFactSet.Ordered ⟨set.facts.extend set.instances.length l, set.instances ++ [⟨set.instances.length, callee, source, bindings,
        List.range' set.facts.facts.length l.length⟩]⟩ := by
  have hids : List.range (set.instances.length + 1) =
      List.range set.instances.length ++ [set.instances.length] := List.range_succ
  refine ⟨?_, ?_, ?_, ?_, ?_, ?_⟩
  · rw [List.map_append, h.ids, List.length_append, List.length_singleton, hids]
    rfl
  · rw [List.flatMap_append, h.facts, FactArena.length_extend, List.range_eq_range',
      List.range_eq_range', ← List.range'_append_1, Nat.zero_add, List.flatMap_singleton]
  · intro a ha id hid
    rcases List.mem_append.mp ha with ha | ha
    · obtain ⟨fact, hget, hfact⟩ := h.records a ha id hid
      exact ⟨fact, (FactArena.get_extend (h.fact_lt ha hid) l).trans hget, hfact⟩
    · obtain rfl := List.mem_singleton.mp ha
      obtain ⟨k, hk, rfl⟩ := List.mem_range'.mp hid
      rw [Nat.one_mul]
      obtain ⟨p, hp⟩ : ∃ p, l[k]? = some p := ⟨_, List.getElem?_eq_getElem hk⟩
      refine ⟨_, (FactArena.get_leaf l k).trans (by rw [hp]; rfl), rfl, rfl, ?_⟩
      exact hscopes p (List.mem_of_getElem? hp)
  · intro a ha origin horigin
    rcases List.mem_append.mp ha with ha | ha
    · exact h.sources a ha origin horigin
    · obtain rfl := List.mem_singleton.mp ha
      unfold ContractFactInstance.ancestors at horigin
      dsimp only at horigin ⊢
      split at horigin
      · rename_i function clone
        obtain rfl := List.mem_singleton.mp horigin
        exact hsources _ _ _ rfl
      · exact (List.not_mem_nil horigin).elim
      · exact (List.not_mem_nil horigin).elim
  · rw [List.length_append]
    exact hlength
  · rw [FactArena.length_extend]
    exact hfacts

end ContractFactSet.Ordered

end CalcKernel
