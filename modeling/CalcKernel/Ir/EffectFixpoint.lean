import CalcKernel.Ir.EffectSolver
import Mathlib.Data.Set.Finite.List
import Mathlib.Order.WellFounded

/-!
# The solution of the effect solver

While functions are unsolved, there is a component whose callees are all solved.  A round
keeps what is assigned below every assignment that includes the effects of the calls, and
a round that changes nothing has reached one.
-/

namespace CalcKernel

open Lib Relation

variable {functions : SortedMap String EffectFunction} {sccs : List (List String)}
  {solved : List Nat} {component : List String} {maxSteps : Nat}

/-! ## Ready components -/

/-- The callee is in a solved component. -/
def SolvedIn (sccs : List (List String)) (solved : List Nat) (name : String) : Prop :=
  ∃ index, sccs.findIdx? (·.contains name) = some index ∧ index ∈ solved

theorem isReady_iff : isReady functions sccs solved component = true ↔
    ∀ name ∈ component, ∀ f, functions.find? name = some f → ∀ call ∈ f.calls,
      call.callee ∈ component ∨ functions.find? call.callee = none ∨
        SolvedIn sccs solved call.callee := by
  unfold isReady
  rw [List.all_eq_true]
  refine forall₂_congr fun name _ ↦ ?_
  cases functions.find? name with
  | none => simp
  | some f =>
      simp only [Option.some.injEq, forall_eq', List.all_eq_true, Bool.or_eq_true,
        List.contains_iff_mem, Option.isNone_iff_eq_none, or_assoc]
      refine forall₂_congr fun call _ ↦ or_congr_right (or_congr_right ?_)
      unfold SolvedIn
      cases sccs.findIdx? (·.contains call.callee) with
      | none => simp
      | some index => simp

theorem findIdx?_eq (hclasses : Classes functions sccs) {i : Nat} {c : List String} {a : String}
    (hi : sccs[i]? = some c) (ha : a ∈ c) : sccs.findIdx? (·.contains a) = some i := by
  cases hfind : sccs.findIdx? (·.contains a) with
  | none =>
      have hnot := List.findIdx?_eq_none_iff.mp hfind c (List.mem_of_getElem? hi)
      rw [List.contains_iff_mem.mpr ha] at hnot
      cases hnot
  | some j =>
      obtain ⟨hlt, hmem, -⟩ := List.findIdx?_eq_some_iff_getElem.mp hfind
      exact congrArg some (hclasses.index_unique (List.getElem?_eq_getElem hlt) hi
        (List.contains_iff_mem.mp hmem) ha)

/-- The classes that are left have one that calls none of the others. -/
theorem exists_ready (hclasses : Classes functions sccs)
    (hall : ∀ a ∈ functions.keys, a ∈ sccs.flatten) {i : Nat} {c : List String}
    (hi : sccs[i]? = some c) (hunsolved : i ∉ solved) :
    ∃ i c, sccs[i]? = some c ∧ i ∉ solved ∧ isReady functions sccs solved c = true := by
  let below : {a // a ∈ functions.keys} → {a // a ∈ functions.keys} → Prop :=
    fun b a ↦ CallReaches functions a b ∧ ¬ CallReaches functions b a
  have hfinite : Finite {a // a ∈ functions.keys} := (List.finite_toSet functions.keys).to_subtype
  have hwf : WellFounded below := by
    have htrans : IsTrans _ below := ⟨fun x y z hxy hyz ↦
      ⟨hyz.1.trans hxy.1, fun h ↦ hxy.2 (h.trans hyz.1)⟩⟩
    have hirrefl : Std.Irrefl below := ⟨fun x h ↦ h.2 .refl⟩
    exact Finite.wellFounded_of_trans_of_irrefl below
  have hfirst : ∃ a : {a // a ∈ functions.keys}, ∃ i c,
      sccs[i]? = some c ∧ a.1 ∈ c ∧ i ∉ solved := by
    obtain ⟨a, ha⟩ := List.exists_mem_of_ne_nil c (hclasses.ne_nil (List.mem_of_getElem? hi))
    exact ⟨⟨a, hclasses.mem_keys (List.mem_of_getElem? hi) ha⟩, i, c, hi, ha, hunsolved⟩
  obtain ⟨⟨a, hkey⟩, ⟨i, c, hi, ha, hunsolved⟩, hmin⟩ := hwf.has_min
    {a | ∃ i c, sccs[i]? = some c ∧ a.1 ∈ c ∧ i ∉ solved} hfirst
  have hc := List.mem_of_getElem? hi
  refine ⟨i, c, hi, hunsolved, isReady_iff.mpr fun name hname f hf call hcall ↦ ?_⟩
  by_cases hin : call.callee ∈ c
  · exact Or.inl hin
  cases hknown : functions.find? call.callee with
  | none => exact Or.inr (Or.inl rfl)
  | some g =>
      have hcallee : call.callee ∈ functions.keys := SortedMap.mem_keys.mpr ⟨g, hknown⟩
      have hreach : CallReaches functions a call.callee :=
        (hclasses.mutual hc ha hname).1.tail (mem_callees.mpr ⟨f, hf, ⟨call, hcall, rfl⟩, hcallee⟩)
      have hback : ¬ CallReaches functions call.callee a := fun h ↦
        hin (hclasses.mem_of_mutual hc ha hcallee ⟨hreach, h⟩)
      obtain ⟨d, hd, hmem⟩ := List.mem_flatten.mp (hall _ hcallee)
      obtain ⟨j, hj⟩ := List.getElem?_of_mem hd
      refine Or.inr (Or.inr ⟨j, findIdx?_eq hclasses hj hmem, ?_⟩)
      by_contra hnot
      exact hmin ⟨call.callee, hcallee⟩ ⟨j, d, hj, hmem, hnot⟩ ⟨hreach, hback⟩

/-! ## What a function does -/

section Effects

variable {summaries previous : SortedMap String EffectSummary} {f : EffectFunction} {e : Effect}

theorem has_unsafeCalls (summary : EffectSummary) (b : Bool) :
    EffectSummary.Has { summary with unsafeCalls := summary.unsafeCalls || b } e ↔
      summary.Has e ∨ b = true ∧ e = .unsafeCall := by
  cases e <;> simp [EffectSummary.Has, EffectSummary.flag, EffectSummary.recorded, Effect.access?]

/-- A function has its direct effects, and for each call the effect of an unsafe call and those of
the callee mapped through the arguments. -/
theorem has_effectsWith : (effectsWith summaries f).Has e ↔ f.direct.Has e ∨
    ∃ call ∈ f.calls, call.isUnsafe = true ∧ e = .unsafeCall ∨
      ∃ d ∈ assigned summaries call.callee, call.map? d = some e := by
  unfold effectsWith
  generalize f.direct = next
  induction f.calls generalizing next with
  | nil => simp
  | cons call calls ih =>
      rw [List.foldl_cons, ih, EffectSummary.has_join, has_unsafeCalls,
        EffectSummary.has_mapCalleeSummary, List.exists_mem_cons_iff]
      change ((_ ∨ _) ∨ (∃ d, d ∈ assigned summaries call.callee ∧ _) ∨ _) ∨ _ ↔ _
      constructor
      · rintro (((h | h) | h | h) | h)
        · exact Or.inl h
        · exact Or.inr (Or.inl (Or.inl h))
        · exact Or.inr (Or.inl (Or.inr h))
        · exact Or.inr (Or.inl (Or.inl h))
        · exact Or.inr (Or.inr h)
      · rintro (h | (h | h) | h)
        · exact Or.inl (Or.inl (Or.inl h))
        · exact Or.inl (Or.inl (Or.inr h))
        · exact Or.inl (Or.inr (Or.inl h))
        · exact Or.inr h

theorem effectsWith_congr
    (h : ∀ call ∈ f.calls, summaries.find? call.callee = previous.find? call.callee) :
    effectsWith summaries f = effectsWith previous f := by
  unfold effectsWith
  generalize f.direct = next
  generalize f.calls = calls at h
  induction calls generalizing next with
  | nil => rfl
  | cons call calls ih =>
      rw [List.foldl_cons, List.foldl_cons, h call List.mem_cons_self]
      exact ih _ fun c hc ↦ h c (List.mem_cons_of_mem _ hc)

end Effects

/-! ## Rounds -/

section Rounds

variable {summaries previous : SortedMap String EffectSummary} {done : List String} {start : Nat}
  {effects : String → Set Effect}

/-- The summaries are those of the functions. -/
def Keyed (functions : SortedMap String EffectFunction)
    (summaries : SortedMap String EffectSummary) : Prop :=
  ∀ name, (summaries.find? name).isSome = (functions.find? name).isSome

def AssignedBelow (summaries : SortedMap String EffectSummary)
    (effects : String → Set Effect) : Prop :=
  ∀ name, assigned summaries name ⊆ effects name

/-- Functions that are solved from below the assignment stay below it. -/
def Preserves (functions : SortedMap String EffectFunction)
    (effects : String → Set Effect) : Prop :=
  ∀ summaries, AssignedBelow summaries effects → ∀ name f, functions.find? name = some f →
    ∀ e, (effectsWith summaries f).Has e → e ∈ effects name

theorem Keyed.insert (h : Keyed functions summaries) {name : String} {f : EffectFunction}
    (hf : functions.find? name = some f) (summary : EffectSummary) :
    Keyed functions (summaries.insert name summary) := by
  intro a
  rw [SortedMap.find?_insert]
  by_cases ha : a = name
  · rw [if_pos ha, ha, hf]
    rfl
  · rw [if_neg ha]
    exact h a

theorem AssignedBelow.insert (h : AssignedBelow summaries effects) {name : String}
    {summary : EffectSummary} (hsummary : ∀ e, summary.Has e → e ∈ effects name) :
    AssignedBelow (summaries.insert name summary) effects := by
  intro a e he
  have he : (((summaries.insert name summary).find? a).getD .fullConservative).Has e := he
  rw [SortedMap.find?_insert] at he
  by_cases ha : a = name
  · rw [if_pos ha, Option.getD_some] at he
    exact ha ▸ hsummary e he
  · rw [if_neg ha] at he
    exact h a he

/-- What holds in a round when some names of the component are done. -/
structure RoundFacts (functions : SortedMap String EffectFunction) (maxSteps : Nat)
    (previous : SortedMap String EffectSummary) (start : Nat) (done : List String)
    (s : RoundState) : Prop where
  outside : ∀ name ∉ done, s.summaries.find? name = previous.find? name
  keyed : Keyed functions s.summaries
  below : ∀ effects, Preserves functions effects → AssignedBelow previous effects →
    AssignedBelow s.summaries effects
  steps_le : s.steps ≤ maxSteps
  start_le : start ≤ s.steps
  progress : done ≠ [] → s.exhausted = true ∨ start < s.steps
  unchanged : s.changed = false → s.summaries = previous
  solved : s.changed = false → s.exhausted = false → ∀ name ∈ done, ∀ f,
    functions.find? name = some f → previous.find? name = some (effectsWith previous f)

/-- One name more is done. -/
theorem RoundFacts.solveName {s : RoundState}
    (h : RoundFacts functions maxSteps previous start done s) {name : String} {f : EffectFunction}
    (hf : functions.find? name = some f) :
    RoundFacts functions maxSteps previous start (done ++ [name])
      (solveName functions maxSteps previous s name) := by
  have houtside : ∀ a ∉ done ++ [name], a ∉ done ∧ a ≠ name := fun a ha ↦
    ⟨fun hmem ↦ ha (List.mem_append_left _ hmem),
      fun heq ↦ ha (List.mem_append_right _ (List.mem_singleton.mpr heq))⟩
  unfold CalcKernel.solveName
  split
  · rename_i hexhausted
    exact { h with
      outside := fun a ha ↦ h.outside a (houtside a ha).1
      progress := fun _ ↦ Or.inl hexhausted
      solved := fun _ hnot ↦ absurd (hexhausted.symm.trans hnot) Bool.noConfusion }
  split
  · exact { h with
      outside := fun a ha ↦ h.outside a (houtside a ha).1
      progress := fun _ ↦ Or.inl rfl
      solved := fun _ hnot ↦ Bool.noConfusion hnot }
  rename_i hless
  rw [hf]
  dsimp only
  have hlimit : s.steps + 1 ≤ maxSteps := not_le.mp hless
  have hstart : start < s.steps + 1 := Nat.lt_succ_of_le h.start_le
  split
  · refine ⟨fun a ha ↦ ?_, h.keyed.insert hf _, fun effects hpreserves hbelow ↦ ?_, hlimit,
      hstart.le, fun _ ↦ Or.inr hstart, fun hnot ↦ Bool.noConfusion hnot,
      fun hnot ↦ Bool.noConfusion hnot⟩
    · rw [SortedMap.find?_insert, if_neg (houtside a ha).2]
      exact h.outside a (houtside a ha).1
    · exact (h.below effects hpreserves hbelow).insert (hpreserves previous hbelow name f hf)
  · rename_i hsame
    refine ⟨fun a ha ↦ h.outside a (houtside a ha).1, h.keyed, h.below, hlimit, hstart.le,
      fun _ ↦ Or.inr hstart, h.unchanged, fun hchanged hexhausted a ha g hg ↦ ?_⟩
    rcases List.mem_append.mp ha with ha | ha
    · exact h.solved hchanged hexhausted a ha g hg
    · rw [List.mem_singleton.mp ha] at hg ⊢
      obtain rfl := Option.some.inj (hf.symm.trans hg)
      rw [← h.unchanged hchanged]
      have hsame := of_not_not hsame
      rw [hsame, h.unchanged hchanged]

theorem RoundFacts.foldl {s : RoundState}
    (h : RoundFacts functions maxSteps previous start done s) (l : List String)
    (hl : ∀ name ∈ l, name ∈ functions.keys) :
    RoundFacts functions maxSteps previous start (done ++ l)
      (l.foldl (CalcKernel.solveName functions maxSteps previous) s) := by
  induction l generalizing done s with
  | nil => rwa [List.append_nil]
  | cons name l ih =>
      obtain ⟨f, hf⟩ := SortedMap.mem_keys.mp (hl name List.mem_cons_self)
      rw [List.append_cons]
      exact ih (h.solveName hf) fun a ha ↦ hl a (List.mem_cons_of_mem _ ha)

theorem solveRound_facts {s : RoundState} (hkeyed : Keyed functions s.summaries)
    (hsteps : s.steps ≤ maxSteps) (hcomponent : ∀ name ∈ component, name ∈ functions.keys) :
    RoundFacts functions maxSteps s.summaries s.steps component
      (solveRound functions maxSteps component s) := by
  have hstart : RoundFacts functions maxSteps s.summaries s.steps [] { s with changed := false } :=
    ⟨fun _ _ ↦ rfl, hkeyed, fun _ _ h ↦ h, hsteps, le_rfl, fun h ↦ absurd rfl h, fun _ ↦ rfl,
      fun _ _ name h ↦ (List.not_mem_nil h).elim⟩
  have hround := hstart.foldl component hcomponent
  rwa [List.nil_append] at hround

/-- What holds between the rounds of a component. -/
structure ComponentFacts (functions : SortedMap String EffectFunction) (maxSteps : Nat)
    (component : List String) (summaries : SortedMap String EffectSummary) (s : RoundState) :
    Prop where
  outside : ∀ name ∉ component, s.summaries.find? name = summaries.find? name
  keyed : Keyed functions s.summaries
  below : ∀ effects, Preserves functions effects → AssignedBelow summaries effects →
    AssignedBelow s.summaries effects
  steps_le : s.steps ≤ maxSteps
  solved : s.changed = false → s.exhausted = false → ∀ name ∈ component, ∀ f,
    functions.find? name = some f → s.summaries.find? name = some (effectsWith s.summaries f)

theorem ComponentFacts.round {s : RoundState}
    (h : ComponentFacts functions maxSteps component summaries s)
    (hcomponent : ∀ name ∈ component, name ∈ functions.keys) :
    ComponentFacts functions maxSteps component summaries
      (solveRound functions maxSteps component s) := by
  have hround := solveRound_facts h.keyed h.steps_le hcomponent
  refine ⟨fun name hname ↦ (hround.outside name hname).trans (h.outside name hname), hround.keyed,
    fun effects hpreserves hbelow ↦ hround.below effects hpreserves
      (h.below effects hpreserves hbelow), hround.steps_le,
    fun hchanged hexhausted name hname f hf ↦ ?_⟩
  rw [hround.unchanged hchanged]
  exact hround.solved hchanged hexhausted name hname f hf

/-- The rounds of a component come to their end: each takes a step or finds none left. -/
theorem solveComponent_returns {steps : Nat} (hkeyed : Keyed functions summaries)
    (hsteps : steps ≤ maxSteps) (hcomponent : ∀ name ∈ component, name ∈ functions.keys)
    (hne : component ≠ []) :
    ∃ r, solveComponent functions maxSteps component summaries steps = some r ∧
      ComponentFacts functions maxSteps component summaries r ∧
      (r.exhausted = false → r.changed = false) := by
  obtain ⟨r, hr, hfacts, hdone⟩ := whileLoop.terminates
    (fun s : RoundState ↦ s.changed && !s.exhausted)
    (fun s ↦ some (solveRound functions maxSteps component s)) (maxSteps + 2)
    (I := ComponentFacts functions maxSteps component summaries)
    (fun s : RoundState ↦ if s.exhausted then 0 else maxSteps + 1 - s.steps)
    (fun s h hcond ↦ by
      refine ⟨_, rfl, h.round hcomponent, ?_⟩
      have hround := solveRound_facts h.keyed h.steps_le hcomponent
      simp only [Bool.and_eq_true, Bool.not_eq_true'] at hcond
      rw [hcond.2, if_neg Bool.false_ne_true]
      have hle := h.steps_le
      rcases hround.progress hne with hexhausted | hless
      · rw [hexhausted, if_pos rfl]
        omega
      · have hle' := hround.steps_le
        split <;> omega)
    (s := ⟨summaries, steps, true, false⟩)
    ⟨fun _ _ ↦ rfl, hkeyed, fun _ _ h ↦ h, hsteps, fun h ↦ Bool.noConfusion h⟩
    (by rw [if_neg Bool.false_ne_true]; dsimp only; omega)
  refine ⟨r, hr, hfacts, fun hexhausted ↦ ?_⟩
  rwa [hexhausted, Bool.not_false, Bool.and_true] at hdone

end Rounds

/-! ## Components in turn -/

section Turns

variable {summaries : SortedMap String EffectSummary} {s : SolverState}

theorem find?_foldl_insert (l : List String) (summaries : SortedMap String EffectSummary)
    (summary : EffectSummary) (name : String) :
    (l.foldl (fun summaries name ↦ summaries.insert name summary) summaries).find? name =
      if name ∈ l then some summary else summaries.find? name := by
  induction l generalizing summaries with
  | nil => simp
  | cons a l ih =>
      rw [List.foldl_cons, ih, SortedMap.find?_insert]
      by_cases hl : name ∈ l
      · rw [if_pos hl, if_pos (List.mem_cons_of_mem _ hl)]
      · rw [if_neg hl]
        by_cases ha : name = a
        · rw [if_pos ha, if_pos (ha ▸ List.mem_cons_self)]
        · rw [if_neg ha, if_neg (fun h ↦ (List.mem_cons.mp h).elim ha hl)]

/-- The function does all, for lack of steps, or what follows from its calls. -/
def Settled (s : SolverState) (name : String) (f : EffectFunction) : Prop :=
  s.exhausted = true ∧ s.summaries.find? name = some .fullConservative ∨
    s.summaries.find? name = some (effectsWith s.summaries f)

/-- What holds of the solver: the functions of the solved components are settled, and so are
all they call. -/
structure SolverFacts (functions : SortedMap String EffectFunction) (maxSteps : Nat)
    (sccs : List (List String)) (s : SolverState) : Prop where
  keyed : Keyed functions s.summaries
  nodup : s.solved.Nodup
  index_lt : ∀ i ∈ s.solved, i < sccs.length
  stuck : s.stuck = false
  steps_le : s.steps ≤ maxSteps
  below : s.exhausted = false → ∀ effects, Preserves functions effects →
    AssignedBelow (functions.mapValues (·.direct)) effects → AssignedBelow s.summaries effects
  settled : ∀ i ∈ s.solved, ∀ c, sccs[i]? = some c → ∀ name ∈ c, ∀ f,
    functions.find? name = some f → Settled s name f
  ready : ∀ i ∈ s.solved, ∀ c, sccs[i]? = some c → isReady functions sccs s.solved c = true

/-- The summaries after a component: all its functions do all when the steps ran out. -/
def afterComponent (component : List String) (r : RoundState) : SortedMap String EffectSummary :=
  if r.exhausted then
    component.foldl (fun summaries name ↦ summaries.insert name .fullConservative) r.summaries
  else r.summaries

section After

variable {r : RoundState} {name : String}

theorem find?_afterComponent (h : ComponentFacts functions maxSteps component summaries r)
    (hname : name ∉ component) :
    (afterComponent component r).find? name = summaries.find? name := by
  unfold afterComponent
  split
  · rw [find?_foldl_insert, if_neg hname]
    exact h.outside name hname
  · exact h.outside name hname

theorem keyed_afterComponent (h : ComponentFacts functions maxSteps component summaries r)
    (hcomponent : ∀ name ∈ component, name ∈ functions.keys) :
    Keyed functions (afterComponent component r) := by
  intro name
  unfold afterComponent
  split
  · rw [find?_foldl_insert]
    by_cases hname : name ∈ component
    · obtain ⟨f, hf⟩ := SortedMap.mem_keys.mp (hcomponent name hname)
      rw [if_pos hname, hf]
      rfl
    · rw [if_neg hname]
      exact h.keyed name
  · exact h.keyed name

end After

/-- What is solved does not call the component that comes next, so it stays settled. -/
theorem SolverFacts.settled_after (hclasses : Classes functions sccs)
    (h : SolverFacts functions maxSteps sccs s) {i j : Nat} {c d : List String}
    (hi : sccs[i]? = some c) (hunsolved : i ∉ s.solved) (hj : j ∈ s.solved)
    (hd : sccs[j]? = some d) {summaries : SortedMap String EffectSummary}
    (houtside : ∀ name ∉ c, summaries.find? name = s.summaries.find? name)
    {name : String} (hname : name ∈ d) {f : EffectFunction} (hf : functions.find? name = some f) :
    s.exhausted = true ∧ summaries.find? name = some .fullConservative ∨
      summaries.find? name = some (effectsWith summaries f) := by
  have hapart : ∀ {k : Nat} {e : List String} {a : String}, k ∈ s.solved → sccs[k]? = some e →
      a ∈ e → a ∉ c := fun hk he ha hac ↦
    hunsolved (hclasses.index_unique hi he hac ha ▸ hk)
  have hcallees : ∀ call ∈ f.calls,
      summaries.find? call.callee = s.summaries.find? call.callee := by
    intro call hcall
    refine houtside _ ?_
    rcases isReady_iff.mp (h.ready j hj d hd) name hname f hf call hcall with hin | hnone | hsolved
    · exact hapart hj hd hin
    · intro hmem
      obtain ⟨g, hg⟩ :=
        SortedMap.mem_keys.mp (hclasses.mem_keys (List.mem_of_getElem? hi) hmem)
      rw [hnone] at hg
      cases hg
    · obtain ⟨k, hfind, hk⟩ := hsolved
      obtain ⟨hlt, hmem, -⟩ := List.findIdx?_eq_some_iff_getElem.mp hfind
      exact hapart hk (List.getElem?_eq_getElem hlt) (List.contains_iff_mem.mp hmem)
  rw [effectsWith_congr hcallees, houtside name (hapart hj hd hname)]
  exact h.settled j hj d hd name hname f hf

theorem SolverFacts.next (hclasses : Classes functions sccs)
    (h : SolverFacts functions maxSteps sccs s) {i : Nat} {c : List String} {r : RoundState}
    (hi : sccs[i]? = some c) (hunsolved : i ∉ s.solved)
    (hready : isReady functions sccs s.solved c = true)
    (hfacts : ComponentFacts functions maxSteps c s.summaries r)
    (hdone : r.exhausted = false → r.changed = false) :
    SolverFacts functions maxSteps sccs
      ⟨afterComponent c r, i :: s.solved, r.steps, s.exhausted || r.exhausted, s.stuck⟩ := by
  have hc := List.mem_of_getElem? hi
  have hmore : ∀ c, isReady functions sccs s.solved c = true →
      isReady functions sccs (i :: s.solved) c = true := by
    intro c hready
    refine isReady_iff.mpr fun name hname f hf call hcall ↦ ?_
    refine (isReady_iff.mp hready name hname f hf call hcall).imp_right
      (Or.imp_right ?_)
    rintro ⟨k, hk, hmem⟩
    exact ⟨k, hk, List.mem_cons_of_mem _ hmem⟩
  refine ⟨keyed_afterComponent hfacts fun name hname ↦ hclasses.mem_keys hc hname,
    List.nodup_cons.mpr ⟨hunsolved, h.nodup⟩, fun j hj ↦ ?_, h.stuck, hfacts.steps_le,
    fun hexhausted effects hpreserves hdirect ↦ ?_, fun j hj d hd name hname f hf ↦ ?_,
    fun j hj d hd ↦ ?_⟩
  · rcases List.mem_cons.mp hj with rfl | hj
    · exact (List.getElem?_eq_some_iff.mp hi).1
    · exact h.index_lt j hj
  · obtain ⟨hs, hr⟩ := Bool.or_eq_false_iff.mp hexhausted
    change AssignedBelow (afterComponent c r) effects
    rw [afterComponent, hr, if_neg Bool.false_ne_true]
    exact hfacts.below effects hpreserves (h.below hs effects hpreserves hdirect)
  · unfold Settled
    dsimp only
    rcases List.mem_cons.mp hj with rfl | hj
    · obtain rfl := Option.some.inj (hi.symm.trans hd)
      cases hr : r.exhausted with
      | true =>
          refine Or.inl ⟨Bool.or_true _, ?_⟩
          rw [afterComponent, hr, if_pos rfl, find?_foldl_insert, if_pos hname]
      | false =>
          rw [afterComponent, hr, if_neg Bool.false_ne_true]
          exact Or.inr (hfacts.solved (hdone hr) hr name hname f hf)
    · rcases h.settled_after hclasses hi hunsolved hj hd
        (fun name hname ↦ find?_afterComponent hfacts hname) hname hf with hfull | heq
      · exact Or.inl ⟨by rw [hfull.1, Bool.true_or], hfull.2⟩
      · exact Or.inr heq
  · rcases List.mem_cons.mp hj with rfl | hj
    · obtain rfl := Option.some.inj (hi.symm.trans hd)
      exact hmore c hready
    · exact hmore d (h.ready j hj d hd)

/-- The next component is settled, and what was settled before stays so. -/
theorem SolverFacts.solveNext (hclasses : Classes functions sccs)
    (hall : ∀ a ∈ functions.keys, a ∈ sccs.flatten) (h : SolverFacts functions maxSteps sccs s)
    (hless : s.solved.length < sccs.length) :
    ∃ t, solveNext functions maxSteps sccs s = some t ∧
      SolverFacts functions maxSteps sccs t ∧ t.solved.length = s.solved.length + 1 := by
  obtain ⟨i, hlt, hunsolved⟩ : ∃ i < sccs.length, i ∉ s.solved := by
    by_contra hnone
    have hsubset : List.range sccs.length ⊆ s.solved := fun i hi ↦ by
      by_contra hi'
      exact hnone ⟨i, List.mem_range.mp hi, hi'⟩
    have hle := (List.subperm_of_subset List.nodup_range hsubset).length_le
    rw [List.length_range] at hle
    omega
  obtain ⟨i, c, hi, hunsolved, hready⟩ :=
    exists_ready hclasses hall (List.getElem?_eq_getElem hlt) hunsolved
  cases hfind : sccs.zipIdx.find? fun p ↦
      !s.solved.contains p.2 && isReady functions sccs s.solved p.1 with
  | none =>
      have hnot := List.find?_eq_none.mp hfind (c, i) (List.mem_zipIdx_iff_getElem?.mpr hi)
      rw [hready, Bool.and_true, Bool.not_eq_true', Bool.not_eq_false,
        List.contains_iff_mem] at hnot
      exact absurd hnot hunsolved
  | some p =>
      obtain ⟨c, i⟩ := p
      have hi : sccs[i]? = some c :=
        List.mem_zipIdx_iff_getElem?.mp (List.mem_of_find?_eq_some hfind)
      have hfound := List.find?_some hfind
      simp only [Bool.and_eq_true, Bool.not_eq_true', Bool.eq_false_iff, ne_eq,
        List.contains_iff_mem] at hfound
      obtain ⟨hunsolved, hready⟩ := hfound
      have hc := List.mem_of_getElem? hi
      obtain ⟨r, hr, hfacts, hdone⟩ := solveComponent_returns h.keyed h.steps_le
        (fun name hname ↦ hclasses.mem_keys hc hname) (hclasses.ne_nil hc)
      refine ⟨⟨afterComponent c r, i :: s.solved, r.steps, s.exhausted || r.exhausted, s.stuck⟩,
        ?_, h.next hclasses hi hunsolved hready hfacts hdone, rfl⟩
      rw [CalcKernel.solveNext, hfind]
      dsimp only
      rw [hr]
      rfl

/-- The components are solved one after another until all functions are settled. -/
theorem solver_returns (functions : SortedMap String EffectFunction) (maxSteps : Nat) :
    ∃ sccs s, stronglyConnectedComponents functions = some sccs ∧
      whileLoop (fun s : SolverState ↦ s.solved.length < sccs.length && !s.stuck)
        (solveNext functions maxSteps sccs) (sccs.length + 1)
        ⟨functions.mapValues (·.direct), [], 0, false, false⟩ = some s ∧
      SolverFacts functions maxSteps sccs s ∧
      ∀ name f, functions.find? name = some f → Settled s name f := by
  obtain ⟨sccs, hsccs, hclasses, hall⟩ := stronglyConnectedComponents_returns functions
  obtain ⟨s, hs, hfacts, hdone⟩ := whileLoop.terminates
    (fun s : SolverState ↦ s.solved.length < sccs.length && !s.stuck)
    (solveNext functions maxSteps sccs) (sccs.length + 1)
    (I := SolverFacts functions maxSteps sccs) (fun s : SolverState ↦ sccs.length - s.solved.length)
    (fun s h hcond ↦ by
      rw [Bool.and_eq_true, decide_eq_true_iff] at hcond
      obtain ⟨t, ht, hfacts, hlength⟩ := h.solveNext hclasses hall hcond.1
      exact ⟨t, ht, hfacts, by omega⟩)
    (s := ⟨functions.mapValues (·.direct), [], 0, false, false⟩)
    ⟨fun name ↦ by rw [SortedMap.find?_mapValues, Option.isSome_map], .nil,
      fun i hi ↦ (List.not_mem_nil hi).elim, rfl, Nat.zero_le _, fun _ _ _ h ↦ h,
      fun i hi ↦ (List.not_mem_nil hi).elim, fun i hi ↦ (List.not_mem_nil hi).elim⟩
    (by rw [List.length_nil]; omega)
  refine ⟨sccs, s, hsccs, hs, hfacts, fun name f hf ↦ ?_⟩
  have hlength : sccs.length ≤ s.solved.length := by
    rw [hfacts.stuck, Bool.not_false, Bool.and_true, decide_eq_false_iff_not, not_lt] at hdone
    exact hdone
  have hperm : s.solved.Perm (List.range sccs.length) :=
    (List.subperm_of_subset hfacts.nodup fun i hi ↦
      List.mem_range.mpr (hfacts.index_lt i hi)).perm_of_length_le (by rwa [List.length_range])
  obtain ⟨c, hc, hname⟩ :=
    List.mem_flatten.mp (hall name (SortedMap.mem_keys.mpr ⟨f, hf⟩))
  obtain ⟨i, hi⟩ := List.getElem?_of_mem hc
  have hsolved : i ∈ s.solved :=
    hperm.mem_iff.mpr (List.mem_range.mpr (List.getElem?_eq_some_iff.mp hi).1)
  exact hfacts.settled i hsolved c hi name hname f hf

end Turns

/-! ## Over-approximation -/

namespace Effect

/-- The effect on all memory instead of one target. -/
def widen : Effect → Effect
  | .read _ => .read .all
  | .write _ => .write .all
  | e => e

end Effect

theorem EffectSummary.covers_iff {summary : EffectSummary} {e : Effect} :
    summary.Covers e ↔ summary.Has e ∨ summary.Has e.widen := by
  cases e with
  | read t | write t =>
      refine Iff.trans (b := ((summary.recorded t).allows _ || _) = true) ?_ Bool.or_eq_true_iff
      rw [← MemoryEffect.allows_join _ _ MemoryEffect.noConfusion]
      exact Iff.rfl
  | runtimeEffect | mayFail | unsafeCall | conservative => exact (or_self_iff).symm

theorem EffectSummary.covers_fullConservative (e : Effect) : fullConservative.Covers e :=
  covers_iff.mpr (Or.inr (by cases e <;> rfl))

theorem EffectCall.map?_widen (call : EffectCall) {d e : Effect} (h : call.map? d = some e) :
    call.map? d.widen = some e.widen := by
  cases d with
  | read t | write t =>
      obtain ⟨t', -, rfl⟩ := Option.map_eq_some_iff.mp h
      rfl
  | runtimeEffect | mayFail | unsafeCall | conservative =>
      cases h
      rfl

namespace EffectGraph

variable {graph : EffectGraph} {effects : String → Set Effect}

theorem find?_functionMap (hnames : (graph.functions.map (·.name)).Nodup) {name : String}
    {f : EffectFunction} :
    graph.functionMap.find? name = some f ↔ f ∈ graph.functions ∧ f.name = name := by
  have hkeys : ((graph.functions.map fun f ↦ (f.name, f)).map Prod.fst).Nodup := by
    rwa [List.map_map]
  rw [functionMap, SortedMap.find?_ofList hkeys, List.mem_map]
  constructor
  · rintro ⟨g, hg, heq⟩
    cases heq
    exact ⟨hg, rfl⟩
  · rintro ⟨hf, rfl⟩
    exact ⟨f, hf, rfl⟩

theorem Includes.preserves (hnames : (graph.functions.map (·.name)).Nodup)
    (h : graph.Includes effects) : Preserves graph.functionMap effects := by
  intro summaries hbelow name f hf e he
  obtain ⟨hmem, rfl⟩ := (find?_functionMap hnames).mp hf
  obtain ⟨hdirect, hcalls⟩ := h.2 f hmem
  rcases has_effectsWith.mp he with he | ⟨call, hcall, ⟨hcallee, rfl⟩ | ⟨d, hd, hmap⟩⟩
  · exact hdirect e he
  · exact (hcalls call hcall).1 hcallee
  · exact (hcalls call hcall).2 d e (hbelow call.callee hd) hmap

theorem Includes.below_direct (hnames : (graph.functions.map (·.name)).Nodup)
    (h : graph.Includes effects) :
    AssignedBelow (graph.functionMap.mapValues (·.direct)) effects := by
  intro name e he
  have hhas :
      (((graph.functionMap.mapValues (·.direct)).find? name).getD .fullConservative).Has e := he
  rw [SortedMap.find?_mapValues] at hhas
  cases hfind : graph.functionMap.find? name with
  | none =>
      rw [hfind] at hhas
      refine h.1 name (fun f hf hname ↦ ?_) e hhas
      rw [(find?_functionMap hnames).mpr ⟨hf, hname⟩] at hfind
      cases hfind
  | some f =>
      rw [hfind, Option.map_some, Option.getD_some] at hhas
      obtain ⟨hmem, rfl⟩ := (find?_functionMap hnames).mp hfind
      exact (h.2 f hmem).1 e hhas

variable {summaries : SortedMap String EffectSummary}

theorem find?_eq_none (hnames : (graph.functions.map (·.name)).Nodup)
    (hkeyed : Keyed graph.functionMap summaries) {name : String}
    (hname : ∀ f ∈ graph.functions, f.name ≠ name) : summaries.find? name = none := by
  have hkey := hkeyed name
  cases hfind : graph.functionMap.find? name with
  | none =>
      rw [hfind] at hkey
      exact Option.not_isSome_iff_eq_none.mp (Bool.eq_false_iff.mp hkey)
  | some f =>
      obtain ⟨hf, heq⟩ := (find?_functionMap hnames).mp hfind
      exact absurd heq (hname f hf)

/-- Summaries that follow from the calls include the effects of all of them. -/
theorem includes_assigned (hnames : (graph.functions.map (·.name)).Nodup)
    (hkeyed : Keyed graph.functionMap summaries)
    (hsolved : ∀ f ∈ graph.functions,
      summaries.find? f.name = some (effectsWith summaries f)) :
    graph.Includes (assigned summaries) := by
  have hassigned : ∀ f ∈ graph.functions, ∀ e,
      (effectsWith summaries f).Has e → e ∈ assigned summaries f.name := by
    intro f hf e he
    change ((summaries.find? f.name).getD .fullConservative).Has e
    rwa [hsolved f hf]
  refine ⟨fun name hname e he ↦ ?_, fun f hf ↦ ⟨fun e he ↦ ?_, fun call hcall ↦
    ⟨fun hcallee ↦ ?_, fun d e hd hmap ↦ ?_⟩⟩⟩
  · change ((summaries.find? name).getD .fullConservative).Has e
    rwa [find?_eq_none hnames hkeyed hname]
  · exact hassigned f hf e (has_effectsWith.mpr (Or.inl he))
  · exact hassigned f hf _ (has_effectsWith.mpr (Or.inr ⟨call, hcall, Or.inl ⟨hcallee, rfl⟩⟩))
  · exact hassigned f hf e (has_effectsWith.mpr (Or.inr ⟨call, hcall, Or.inr ⟨d, hd, hmap⟩⟩))

/-- The effects that summaries allow. -/
def allowed (summaries : SortedMap String EffectSummary) (name : String) : Set Effect :=
  {e | ((summaries.find? name).getD .fullConservative).Covers e}

/-- So do the effects that summaries allow, also where some functions do everything. -/
theorem includes_allowed (hnames : (graph.functions.map (·.name)).Nodup)
    (hkeyed : Keyed graph.functionMap summaries)
    (hsolved : ∀ f ∈ graph.functions, summaries.find? f.name = some .fullConservative ∨
      summaries.find? f.name = some (effectsWith summaries f)) :
    graph.Includes (allowed summaries) := by
  have hallowed : ∀ f ∈ graph.functions, ∀ e,
      (effectsWith summaries f).Has e ∨ (effectsWith summaries f).Has e.widen →
        e ∈ allowed summaries f.name := by
    intro f hf e he
    change ((summaries.find? f.name).getD .fullConservative).Covers e
    rcases hsolved f hf with hfull | hfind
    · rw [hfull]
      exact EffectSummary.covers_fullConservative e
    · rw [hfind]
      exact EffectSummary.covers_iff.mpr he
  refine ⟨fun name hname e _ ↦ ?_, fun f hf ↦ ⟨fun e he ↦ ?_, fun call hcall ↦
    ⟨fun hcallee ↦ ?_, fun d e hd hmap ↦ ?_⟩⟩⟩
  · change ((summaries.find? name).getD .fullConservative).Covers e
    rw [find?_eq_none hnames hkeyed hname]
    exact EffectSummary.covers_fullConservative e
  · exact hallowed f hf e (Or.inl (has_effectsWith.mpr (Or.inl he)))
  · exact hallowed f hf _
      (Or.inl (has_effectsWith.mpr (Or.inr ⟨call, hcall, Or.inl ⟨hcallee, rfl⟩⟩)))
  · refine hallowed f hf e ((EffectSummary.covers_iff.mp hd).imp (fun hd ↦ ?_) (fun hd ↦ ?_))
    · exact has_effectsWith.mpr (Or.inr ⟨call, hcall, Or.inr ⟨d, hd, hmap⟩⟩)
    · exact has_effectsWith.mpr
        (Or.inr ⟨call, hcall, Or.inr ⟨d.widen, hd, call.map?_widen hmap⟩⟩)

theorem functionMap_perm {functions : List EffectFunction}
    (hperm : functions.Perm graph.functions) (hnames : (graph.functions.map (·.name)).Nodup) :
    (⟨functions⟩ : EffectGraph).functionMap = graph.functionMap := by
  unfold functionMap
  refine SortedMap.ofList_perm (hperm.map _) ?_
  rw [List.map_map]
  exact (hperm.map (·.name)).nodup_iff.mpr hnames

theorem maxSteps_perm {functions : List EffectFunction} (hperm : functions.Perm graph.functions)
    (config : EffectSolveConfig) :
    (⟨functions⟩ : EffectGraph).maxSteps config = graph.maxSteps config := by
  unfold maxSteps
  rw [(hperm.map _).sum_eq]

end EffectGraph

/-- Two functions that call each other, one of which writes to its second parameter. -/
def mutualGraph : EffectGraph :=
  ⟨[⟨"ping", 1, .empty, [⟨"pong", [some .all, some (.parameter 0)], false⟩]⟩,
    ⟨"pong", 2, .fromAccess ⟨.parameter 1, .write⟩, [⟨"ping", [some (.parameter 0)], false⟩]⟩]⟩

end CalcKernel
