import Mathlib.Algebra.GroupWithZero.Nat
import CalcKernel.Ir.Effects
import CalcKernel.Lib.Search
import Mathlib.Data.Fintype.EquivFin
import Mathlib.Data.String.Basic
import Mathlib.Order.Bounds.Basic

/-!
# The effect solver

Effects are solved component by component from the callees up, in rounds within one
budget of steps.  What comes out without exhaustion is the least assignment that includes
the effects of all calls; a component that runs out of steps gets all effects.
-/

namespace CalcKernel

open Lib Relation

/-- The largest `u32`. -/
def effectStepLimit : Nat := 4294967295

structure EffectSolveConfig where
  maxStepsOverride : Option Nat

structure EffectSolveResult where
  summaries : SortedMap String EffectSummary
  sccs : List (List String)
  steps : Nat
  maxSteps : Nat
  exhausted : Bool

/-! ## Components -/

section Components

variable (functions : SortedMap String EffectFunction)

/-- The functions that a function calls, in order. -/
def callees (name : String) : List String :=
  match functions.find? name with
  | some function => (function.calls.map (·.callee)).filter fun callee ↦
      (functions.find? callee).isSome
  | none => []

def reachableFrom (start : String) : Option (List String) :=
  search (fun name ↦ some (callees functions name))
    (1 + (functions.keys.map fun name ↦ (callees functions name).length).sum) [start]

/-- Adds the component of a name that is in none yet. -/
def addComponent (reaches : String → String → Bool) (components : List (List String))
    (name : String) : List (List String) :=
  if components.flatten.contains name then components
  else components ++ [functions.keys.filter fun candidate ↦
    !components.flatten.contains candidate && reaches name candidate && reaches candidate name]

def stronglyConnectedComponents : Option (List (List String)) := do
  let reachability ← functions.keys.mapM fun name ↦
    (reachableFrom functions name).map fun reached ↦ (name, reached)
  let reaches := fun a b ↦ ((reachability.lookup a).getD []).contains b
  some (functions.keys.foldl (addComponent functions reaches) [])

end Components

/-! ## Rounds -/

/-- What a function does, with the summaries of the callees so far. -/
def effectsWith (previous : SortedMap String EffectSummary) (function : EffectFunction) :
    EffectSummary :=
  function.calls.foldl (fun next call ↦
    { next with unsafeCalls := next.unsafeCalls || call.isUnsafe }.join
      (mapCalleeSummary ((previous.find? call.callee).getD .fullConservative) call)) function.direct

structure RoundState where
  summaries : SortedMap String EffectSummary
  steps : Nat
  changed : Bool
  exhausted : Bool

section Solver

variable (functions : SortedMap String EffectFunction) (maxSteps : Nat)

/-- One name of a round; nothing more is done once the steps are used up. -/
def solveName (previous : SortedMap String EffectSummary) (s : RoundState) (name : String) :
    RoundState :=
  if s.exhausted then s
  else if maxSteps ≤ s.steps then { s with exhausted := true }
  else
    match functions.find? name with
    | none => s
    | some function =>
        let next := effectsWith previous function
        if s.summaries.find? name ≠ some next then
          { s with
            summaries := s.summaries.insert name next, steps := s.steps + 1, changed := true }
        else { s with steps := s.steps + 1 }

def solveRound (component : List String) (s : RoundState) : RoundState :=
  component.foldl (solveName functions maxSteps s.summaries) { s with changed := false }

/-- Rounds until nothing changes or the steps are used up. -/
def solveComponent (component : List String) (summaries : SortedMap String EffectSummary)
    (steps : Nat) : Option RoundState :=
  whileLoop (fun s ↦ s.changed && !s.exhausted)
    (fun s ↦ some (solveRound functions maxSteps component s)) (maxSteps + 2)
    ⟨summaries, steps, true, false⟩

structure SolverState where
  summaries : SortedMap String EffectSummary
  solved : List Nat
  steps : Nat
  exhausted : Bool
  stuck : Bool

/-- All callees outside the component are solved. -/
def isReady (sccs : List (List String)) (solved : List Nat) (component : List String) : Bool :=
  component.all fun name ↦
    match functions.find? name with
    | none => true
    | some function => function.calls.all fun call ↦
        component.contains call.callee || (functions.find? call.callee).isNone ||
          match sccs.findIdx? (·.contains call.callee) with
          | some index => solved.contains index
          | none => false

def solveNext (sccs : List (List String)) (s : SolverState) : Option SolverState :=
  match sccs.zipIdx.find? fun p ↦ !s.solved.contains p.2 && isReady functions sccs s.solved p.1 with
  | none => some { s with stuck := true }
  | some (component, index) => do
      let r ← solveComponent functions maxSteps component s.summaries s.steps
      let summaries := if r.exhausted then
        component.foldl (fun summaries name ↦ summaries.insert name .fullConservative) r.summaries
        else r.summaries
      some ⟨summaries, index :: s.solved, r.steps, s.exhausted || r.exhausted, s.stuck⟩

end Solver

namespace EffectGraph

variable (graph : EffectGraph)

def functionMap : SortedMap String EffectFunction :=
  .ofList (graph.functions.map fun function ↦ (function.name, function))

def maxSteps (config : EffectSolveConfig) : Nat :=
  let units := min effectStepLimit ((graph.functions.map fun function ↦
    1 + function.calls.length + function.direct.accesses.length).sum)
  config.maxStepsOverride.getD (min effectStepLimit (min effectStepLimit (units * 32) + 64))

end EffectGraph

def solveEffectGraph (graph : EffectGraph) (config : EffectSolveConfig) :
    Option EffectSolveResult := do
  let functions := graph.functionMap
  let sccs ← stronglyConnectedComponents functions
  let s ← whileLoop (fun s : SolverState ↦ s.solved.length < sccs.length && !s.stuck)
    (solveNext functions (graph.maxSteps config) sccs) (sccs.length + 1)
    ⟨functions.mapValues (·.direct), [], 0, false, false⟩
  some ⟨s.summaries, sccs, s.steps, graph.maxSteps config, s.exhausted⟩

/-! ## What a solution is -/

/-- The effects that summaries assign; what is not known does everything. -/
def assigned (summaries : SortedMap String EffectSummary) (name : String) : Set Effect :=
  {e | ((summaries.find? name).getD .fullConservative).Has e}

/-- The assignment includes the direct effects of every function and, for every call, those of
the callee mapped through the arguments. -/
def EffectGraph.Includes (graph : EffectGraph) (effects : String → Set Effect) : Prop :=
  (∀ name, (∀ f ∈ graph.functions, f.name ≠ name) →
    ∀ e, EffectSummary.fullConservative.Has e → e ∈ effects name) ∧
  ∀ f ∈ graph.functions, (∀ e, f.direct.Has e → e ∈ effects f.name) ∧
    ∀ call ∈ f.calls, (call.isUnsafe = true → .unsafeCall ∈ effects f.name) ∧
      ∀ d e, d ∈ effects call.callee → call.map? d = some e → e ∈ effects f.name

/-- The effects in every assignment that includes those of all calls. -/
def EffectGraph.leastEffects (graph : EffectGraph) (name : String) : Set Effect :=
  {e | ∀ effects, graph.Includes effects → e ∈ effects name}

theorem EffectGraph.isLeast_leastEffects (graph : EffectGraph) :
    IsLeast {effects | graph.Includes effects} graph.leastEffects := by
  refine ⟨⟨fun name hname e he effects h ↦ h.1 name hname e he, fun f hf ↦ ⟨?_, ?_⟩⟩,
    fun effects h name e he ↦ he effects h⟩
  · exact fun e he effects h ↦ (h.2 f hf).1 e he
  · refine fun call hcall ↦ ⟨fun hcallee effects h ↦ ?_, fun d e hd hmap effects h ↦ ?_⟩
    · exact ((h.2 f hf).2 call hcall).1 hcallee
    · exact ((h.2 f hf).2 call hcall).2 d e (hd effects h) hmap

/-! ## Search -/

section Search

variable {functions : SortedMap String EffectFunction} {a b : String}

/-- A function reaches those it calls, directly or not. -/
def CallReaches (functions : SortedMap String EffectFunction) : String → String → Prop :=
  ReflTransGen fun a b ↦ b ∈ callees functions a

theorem mem_callees : b ∈ callees functions a ↔ ∃ f, functions.find? a = some f ∧
    (∃ call ∈ f.calls, call.callee = b) ∧ b ∈ functions.keys := by
  unfold callees
  cases hfind : functions.find? a with
  | none => simp
  | some f =>
      simp only [List.mem_filter, List.mem_map, Option.some.injEq, exists_eq_left',
        SortedMap.mem_keys, Option.isSome_iff_exists]

theorem reachableFrom_returns (functions : SortedMap String EffectFunction) (start : String) :
    ∃ reached, reachableFrom functions start = some reached ∧
      ∀ b, b ∈ reached ↔ CallReaches functions start b := by
  obtain ⟨reached, hsearch, hmem⟩ := @search_returns _ _ [start]
    (1 + (functions.keys.map fun name ↦ (callees functions name).length).sum) (callees functions)
    functions.keys (fun name hname ↦ by
      refine List.eq_nil_iff_forall_not_mem.mpr fun b hb ↦ hname ?_
      obtain ⟨f, hf, -⟩ := mem_callees.mp hb
      exact SortedMap.mem_keys.mpr ⟨f, hf⟩) le_rfl
  refine ⟨reached, hsearch, fun b ↦ (hmem b).trans ?_⟩
  simp only [List.mem_singleton, exists_eq_left]
  exact Iff.rfl

end Search

/-! ## Classes of components -/

section Classes

variable {functions : SortedMap String EffectFunction} {components : List (List String)}
  {a b name : String}

/-- Two functions are in one class when each reaches the other. -/
def Mutual (functions : SortedMap String EffectFunction) (a b : String) : Prop :=
  CallReaches functions a b ∧ CallReaches functions b a

theorem Mutual.symm (h : Mutual functions a b) : Mutual functions b a := ⟨h.2, h.1⟩

theorem Mutual.trans {c : String} (hab : Mutual functions a b) (hbc : Mutual functions b c) :
    Mutual functions a c :=
  ⟨hab.1.trans hbc.1, hbc.2.trans hab.2⟩

/-- Each component is the class of a function, and no two have a member in common. -/
structure Classes (functions : SortedMap String EffectFunction)
    (components : List (List String)) : Prop where
  class_of : ∀ c ∈ components, ∃ a ∈ functions.keys, ∀ b, b ∈ c ↔ b ∈ functions.keys ∧
    Mutual functions a b
  disjoint : components.Pairwise fun c d ↦ ∀ b ∈ c, b ∉ d

theorem Classes.mem_of_mutual (h : Classes functions components) {c : List String}
    (hc : c ∈ components) (ha : a ∈ c) (hb : b ∈ functions.keys) (hab : Mutual functions a b) :
    b ∈ c := by
  obtain ⟨r, -, hclass⟩ := h.class_of c hc
  exact (hclass b).mpr ⟨hb, ((hclass a).mp ha).2.trans hab⟩

theorem Classes.mutual (h : Classes functions components) {c : List String}
    (hc : c ∈ components) (ha : a ∈ c) (hb : b ∈ c) : Mutual functions a b := by
  obtain ⟨r, -, hclass⟩ := h.class_of c hc
  exact ((hclass a).mp ha).2.symm.trans ((hclass b).mp hb).2

theorem Classes.mem_keys (h : Classes functions components) {c : List String}
    (hc : c ∈ components) (ha : a ∈ c) : a ∈ functions.keys := by
  obtain ⟨r, -, hclass⟩ := h.class_of c hc
  exact ((hclass a).mp ha).1

theorem Classes.ne_nil (h : Classes functions components) {c : List String}
    (hc : c ∈ components) : c ≠ [] := by
  obtain ⟨r, hr, hclass⟩ := h.class_of c hc
  exact List.ne_nil_of_mem ((hclass r).mpr ⟨hr, .refl, .refl⟩)

/-- A name is in one component only. -/
theorem Classes.index_unique (h : Classes functions components) {i j : Nat} {c d : List String}
    (hi : components[i]? = some c) (hj : components[j]? = some d) (hc : a ∈ c) (hd : a ∈ d) :
    i = j := by
  have hpair := List.pairwise_iff_getElem.mp h.disjoint
  obtain ⟨hilt, rfl⟩ := List.getElem?_eq_some_iff.mp hi
  obtain ⟨hjlt, rfl⟩ := List.getElem?_eq_some_iff.mp hj
  rcases lt_trichotomy i j with hlt | heq | hlt
  · exact absurd hd (hpair i j hilt hjlt hlt a hc)
  · exact heq
  · exact absurd hc (hpair j i hjlt hilt hlt a hd)

variable {reaches : String → String → Bool}

/-- Adding the component of a name keeps the classes, and the name is in one of them. -/
theorem Classes.add (h : Classes functions components)
    (hreaches : ∀ a ∈ functions.keys, ∀ b, reaches a b = true ↔ CallReaches functions a b)
    (hname : name ∈ functions.keys) :
    Classes functions (addComponent functions reaches components name) ∧
      (∀ a ∈ components.flatten, a ∈ (addComponent functions reaches components name).flatten) ∧
      name ∈ (addComponent functions reaches components name).flatten := by
  unfold addComponent
  split
  · rename_i hmem
    exact ⟨h, fun a ha ↦ ha, List.contains_iff_mem.mp hmem⟩
  · rename_i hnot
    have hnot : name ∉ components.flatten := fun hmem ↦ hnot (List.contains_iff_mem.mpr hmem)
    -- a candidate of the class cannot be in a component already, or the name would be too
    have hmem : ∀ b, b ∈ functions.keys.filter (fun candidate ↦
        !components.flatten.contains candidate && reaches name candidate &&
          reaches candidate name) ↔ b ∈ functions.keys ∧ Mutual functions name b := by
      intro b
      rw [List.mem_filter]
      refine and_congr_right fun hb ↦ ?_
      rw [Bool.and_eq_true, Bool.and_eq_true, hreaches name hname, hreaches b hb]
      refine ⟨fun hall ↦ ⟨hall.1.2, hall.2⟩, fun hmutual ↦ ⟨⟨?_, hmutual.1⟩, hmutual.2⟩⟩
      rw [Bool.not_eq_true', Bool.eq_false_iff]
      intro hcontains
      obtain ⟨c, hc, hbc⟩ := List.mem_flatten.mp (List.contains_iff_mem.mp hcontains)
      exact hnot (List.mem_flatten.mpr ⟨c, hc, h.mem_of_mutual hc hbc hname hmutual.symm⟩)
    refine ⟨⟨fun c hc ↦ ?_, ?_⟩, fun a ha ↦ ?_, ?_⟩
    · rcases List.mem_append.mp hc with hc | hc
      · exact h.class_of c hc
      · rw [List.mem_singleton.mp hc]
        exact ⟨name, hname, hmem⟩
    · refine List.pairwise_append.mpr ⟨h.disjoint, List.pairwise_singleton _ _,
        fun c hc d hd b hbc hbd ↦ hnot ?_⟩
      rw [List.mem_singleton.mp hd, hmem] at hbd
      exact List.mem_flatten.mpr ⟨c, hc, h.mem_of_mutual hc hbc hname hbd.2.symm⟩
    · rw [List.flatten_append]
      exact List.mem_append_left _ ha
    · rw [List.flatten_append, List.mem_append]
      refine Or.inr ?_
      rw [List.flatten_singleton]
      exact (hmem name).mpr ⟨hname, .refl, .refl⟩

theorem classes_foldl
    (hreaches : ∀ a ∈ functions.keys, ∀ b, reaches a b = true ↔ CallReaches functions a b)
    (l : List String) (hl : ∀ name ∈ l, name ∈ functions.keys) (h : Classes functions components) :
    Classes functions (l.foldl (addComponent functions reaches) components) ∧
      (∀ a ∈ components.flatten,
        a ∈ (l.foldl (addComponent functions reaches) components).flatten) ∧
      ∀ a ∈ l, a ∈ (l.foldl (addComponent functions reaches) components).flatten := by
  induction l generalizing components with
  | nil => exact ⟨h, fun a ha ↦ ha, fun a ha ↦ (List.not_mem_nil ha).elim⟩
  | cons name l ih =>
      obtain ⟨hadd, hkept, hin⟩ := h.add hreaches (hl name List.mem_cons_self)
      obtain ⟨hclasses, hkept', hall⟩ := ih (fun a ha ↦ hl a (List.mem_cons_of_mem _ ha)) hadd
      refine ⟨hclasses, fun a ha ↦ hkept' a (hkept a ha), fun a ha ↦ ?_⟩
      rcases List.mem_cons.mp ha with rfl | ha
      · exact hkept' a hin
      · exact hall a ha

theorem lookup_mapM {g : String → Option (List String)} {l : List String}
    {table : List (String × List String)}
    (h : l.mapM (fun name ↦ (g name).map fun reached ↦ (name, reached)) = some table)
    (ha : a ∈ l) : ∃ reached, table.lookup a = some reached ∧ g a = some reached := by
  induction l generalizing table with
  | nil => exact (List.not_mem_nil ha).elim
  | cons name l ih =>
      rw [List.mapM_cons] at h
      obtain ⟨p, hp, h⟩ := Option.bind_eq_some_iff.mp h
      obtain ⟨rest, hrest, h⟩ := Option.bind_eq_some_iff.mp h
      obtain ⟨reached, hreached, rfl⟩ := Option.map_eq_some_iff.mp hp
      cases h
      rw [List.lookup_cons]
      by_cases heq : a = name
      · subst heq
        rw [beq_self_eq_true]
        exact ⟨reached, rfl, hreached⟩
      · rw [beq_eq_false_iff_ne.mpr heq]
        exact ih hrest ((List.mem_cons.mp ha).resolve_left heq)

/-- The components are the classes, and every function is in one. -/
theorem stronglyConnectedComponents_returns (functions : SortedMap String EffectFunction) :
    ∃ sccs, stronglyConnectedComponents functions = some sccs ∧ Classes functions sccs ∧
      ∀ a ∈ functions.keys, a ∈ sccs.flatten := by
  have htable : ∀ l : List String, ∃ table, l.mapM (fun name ↦
      (reachableFrom functions name).map fun reached ↦ (name, reached)) = some table := by
    intro l
    induction l with
    | nil => exact ⟨[], rfl⟩
    | cons name l ih =>
        obtain ⟨table, htable⟩ := ih
        obtain ⟨reached, hreached, -⟩ := reachableFrom_returns functions name
        rw [List.mapM_cons, hreached, htable]
        exact ⟨_, rfl⟩
  obtain ⟨table, htable⟩ := htable functions.keys
  have hreaches : ∀ a ∈ functions.keys, ∀ b,
      ((table.lookup a).getD []).contains b = true ↔ CallReaches functions a b := by
    intro a ha b
    obtain ⟨reached, hlookup, hreached⟩ := lookup_mapM htable ha
    obtain ⟨reached', hreached', hmem⟩ := reachableFrom_returns functions a
    obtain rfl := Option.some.inj (hreached.symm.trans hreached')
    rw [hlookup, Option.getD_some, List.contains_iff_mem]
    exact hmem b
  have hempty : Classes functions [] := ⟨fun c hc ↦ (List.not_mem_nil hc).elim, .nil⟩
  obtain ⟨hclasses, -, hall⟩ := classes_foldl hreaches functions.keys (fun _ h ↦ h) hempty
  refine ⟨_, ?_, hclasses, hall⟩
  unfold stronglyConnectedComponents
  rw [htable]
  rfl

end Classes

end CalcKernel
