import CalcKernel.Optimizer.InductionValid

/-!
# Induction simplification

Whatever the budget, the module the pass leaves is verified, its functions run as before, and
a parameter that is gone is a copy of one it equalled all along.  A function that runs out of
steps is left as it is, and after an error so is the module.
-/

namespace CalcKernel

open Lib

/-! ## What is left alone -/

section Plan

variable {fixed : List ValueId} {maxSteps : Option Nat} {plan plan' : InductionPlan}

/-- A function is planned for or given up, not both. -/
theorem planFunction_spec {entry : KirFunction × List BlockId}
    (h : planFunction fixed maxSteps plan entry = .ok plan') :
    ∃ new stopped, plan'.replacements = plan.replacements ++ new ∧
      plan'.exhausted = plan.exhausted ++ stopped ∧ (∀ r ∈ new, r.function = entry.1.id) ∧
      (∀ id ∈ stopped, id = entry.1.id) ∧ (new = [] ∨ stopped = []) := by
  unfold planFunction at h
  dsimp only at h
  split at h
  · cases h
    exact ⟨[], [], by simp⟩
  · split at h
    · cases h
    · cases h
      exact ⟨[], [entry.1.id], by simp⟩
    · cases h
      refine ⟨_, [], rfl, (List.append_nil _).symm, fun r hr ↦ ?_, by simp, .inr rfl⟩
      obtain ⟨p, -, rfl⟩ := List.mem_map.mp hr
      rfl

/-- No function that is given up has a replacement. -/
theorem planFunctions_spec {entries : List (KirFunction × List BlockId)}
    (hids : (entries.map (·.1.id)).Nodup)
    (hplan : ∀ r ∈ plan.replacements, r.function ∉ plan.exhausted)
    (hapart : ∀ id ∈ plan.replacements.map (·.function) ++ plan.exhausted,
      id ∉ entries.map (·.1.id))
    (h : entries.foldlM (planFunction fixed maxSteps) plan = .ok plan') :
    ∀ r ∈ plan'.replacements, r.function ∉ plan'.exhausted := by
  induction entries generalizing plan with
  | nil =>
      cases h
      exact hplan
  | cons entry entries ih =>
      rw [List.foldlM_cons] at h
      cases hstep : planFunction fixed maxSteps plan entry with
      | error message =>
          rw [hstep] at h
          cases h
      | ok next =>
          rw [hstep] at h
          obtain ⟨new, stopped, hreplacements, hexhausted, hnew, hstopped, hone⟩ :=
            planFunction_spec hstep
          rw [List.map_cons, List.nodup_cons] at hids
          have hold : entry.1.id ∉ plan.replacements.map (·.function) ++ plan.exhausted :=
            fun hmem ↦ hapart _ hmem List.mem_cons_self
          refine ih hids.2 ?_ ?_ h
          · intro r hr hmem
            rw [hreplacements] at hr
            rw [hexhausted] at hmem
            rcases List.mem_append.mp hr with hr | hr
            · rcases List.mem_append.mp hmem with hmem | hmem
              · exact hplan r hr hmem
              · refine hold (List.mem_append_left _ ?_)
                exact hstopped _ hmem ▸ List.mem_map_of_mem (f := (·.function)) hr
            · rcases List.mem_append.mp hmem with hmem | hmem
              · exact hold (List.mem_append_right _ (hnew r hr ▸ hmem))
              · rcases hone with rfl | rfl
                · cases hr
                · cases hmem
          · intro id hid hlater
            rw [hreplacements, hexhausted, List.map_append] at hid
            have hcases : id ∈ plan.replacements.map (·.function) ++ plan.exhausted ∨
                id = entry.1.id := by
              rcases List.mem_append.mp hid with hid | hid <;>
                rcases List.mem_append.mp hid with hid | hid
              · exact .inl (List.mem_append_left _ hid)
              · obtain ⟨r, hr, rfl⟩ := List.mem_map.mp hid
                exact .inr (hnew r hr)
              · exact .inl (List.mem_append_right _ hid)
              · exact .inr (hstopped id hid)
            rcases hcases with hid | rfl
            · exact hapart id hid (List.mem_cons_of_mem _ hlater)
            · exact hids.1 hlater

end Plan

section

variable {m m' : KirModule} {prepared : List PreparedCopy} {f : KirFunction}

/-- A function that no copy is prepared for stays as it is. -/
theorem KirFunction.simplify_eq_self (h : ∀ p ∈ prepared, p.function ≠ f.id) :
    f.simplify prepared = f := by
  have hdropped : ∀ block k, droppedAt prepared f.id block k = false := by
    intro block k
    refine List.any_eq_false.mpr fun p hp ↦ ?_
    simp [h p hp]
  have hcopies : ∀ block, copiesAt prepared f.id block = [] := by
    intro block
    refine List.eq_nil_iff_forall_not_mem.mpr fun i hi ↦ ?_
    obtain ⟨p, hp, hfunction, -⟩ := PreparedCopies.mem_copiesAt.mp hi
    exact h p hp hfunction
  have hedge : ∀ edge, repairEdge prepared f.id edge = edge := by
    intro edge
    rw [repairEdge, eraseAt_eq_self fun k _ ↦ hdropped _ k]
  have hblock : ∀ b ∈ f.blocks, b.simplify prepared f.id = b := by
    intro b _
    have hterminator : b.terminator.repair prepared f.id = b.terminator := by
      cases b.terminator <;> simp only [KirTerminator.repair, hedge]
    rw [KirBlock.simplify, eraseAt_eq_self fun k _ ↦ hdropped _ k, hterminator, hcopies,
      List.nil_append]
  rw [simplify, List.map_congr_left hblock, List.map_id']

/-- The pass rewrites the module with prepared copies, with none after an error and with none for
a function it gave up. -/
theorem runInductionSimplification_eq {fixed : List ValueId} {analyses : List (List BlockId)}
    {maxSteps : Option Nat} {result : Except String InductionSimplification}
    (hids : (m.functions.map (·.id)).Nodup)
    (h : runInductionSimplification m fixed analyses maxSteps = (result, m')) :
    ∃ prepared, PreparedCopies m prepared ∧ m' = m.simplify prepared ∧
      (∀ message, result = .error message → m' = m) ∧
      ∀ r, result = .ok r → ∀ p ∈ prepared, p.function ∉ r.exhaustedFunctions := by
  unfold runInductionSimplification at h
  split at h
  · cases h
    exact ⟨[], .nil m, m.simplify_nil.symm, fun _ _ ↦ rfl, fun _ h ↦ (by cases h)⟩
  rename_i plan hplan
  split at h
  · cases h
    exact ⟨[], .nil m, m.simplify_nil.symm, fun _ _ ↦ rfl, fun _ h ↦ (by cases h)⟩
  rename_i simplified m₁ happly
  cases h
  obtain ⟨prepared, hprepared, rfl, hfunctions⟩ := applyReplacements_eq_ok happly
  refine ⟨prepared, hprepared, rfl, fun _ h ↦ (by cases h), ?_⟩
  rintro r hr p hp
  cases hr
  obtain ⟨q, hq, hfunction⟩ := List.mem_map.mp (hfunctions p hp)
  rw [← hfunction]
  refine planFunctions_spec ?_ (by simp [InductionPlan.empty]) (by simp [InductionPlan.empty])
    hplan q hq
  have hsublist := (map_fst_zip_sublist m.functions analyses).map (·.id)
  rw [List.map_map] at hsublist
  exact hsublist.nodup hids

end

/-! ## The pass -/

/-- The module stays verified, runs of its functions end as before or not at all, a parameter that
is gone is a copy of one it equals wherever a run is, and what fails or is given up is left as
it was. -/
theorem inductionSimplification_preserves {m m' : KirModule} {fixed : List ValueId}
    {analyses : List (List BlockId)} {maxSteps : Option Nat}
    {result : Except String InductionSimplification} (hm : m.Verified)
    (hentries : ∀ f ∈ m.functions, f.PlainEntry)
    (h : runInductionSimplification m fixed analyses maxSteps = (result, m')) :
    m'.Verified ∧
    (∀ (t : TargetModel) name args memory,
      ((m'.start name args memory).isSome ↔ (m.start name args memory).isSome) ∧
      ∀ s s', m.start name args memory = some s → m'.start name args memory = some s' →
        (∀ o, (kirMachine t m').Halts s' o ↔ (kirMachine t m).Halts s o) ∧
        ((kirMachine t m').Diverges s' ↔ (kirMachine t m).Diverges s) ∧
        ((kirMachine t m').GetsStuck s' ↔ (kirMachine t m).GetsStuck s)) ∧
    (∀ f ∈ m.functions, ∀ b ∈ f.blocks, ∃ f' ∈ m'.functions, f'.id = f.id ∧
      ∃ b' ∈ f'.blocks, b'.id = b.id ∧ ∀ v ∈ b.params.map (·.value),
        v ∈ b'.params.map (·.value) ∨ ∃ w ∈ b.params.map (·.value),
          (∃ i ∈ b'.instructions, i.kind = .copy w ∧ i.defs = [v]) ∧
          ∀ (t : TargetModel) past frame memory, Activation t f past frame memory →
            frame.env v = frame.env w) ∧
    (∀ message, result = .error message → m' = m) ∧
    ∀ r, result = .ok r → ∀ f ∈ m.functions, f.id ∈ r.exhaustedFunctions → f ∈ m'.functions := by
  obtain ⟨prepared, hprepared, rfl, herror, hexhausted⟩ :=
    runInductionSimplification_eq hm.functionIds h
  have hsimplifiable : Simplifiable m := ⟨hm.values, hm.typed, hentries⟩
  refine ⟨hm.simplify hprepared, fun t name args memory ↦ ⟨?_, fun s s' hs hs' ↦ ?_⟩, ?_, herror, ?_⟩
  · rw [hsimplifiable.start hprepared, Option.isSome_map]
  · obtain ⟨hstart, hends⟩ := hsimplifiable.equivalent (t := t) hprepared hs
    obtain rfl := Option.some.inj (hs'.symm.trans hstart)
    exact hends
  · intro f hf b hb
    refine ⟨f.simplify prepared, List.mem_map_of_mem hf, rfl, b.simplify prepared f.id,
      KirFunction.simplify_block_mem hb, rfl, fun v hv ↦ ?_⟩
    obtain ⟨param, hparam, rfl⟩ := List.mem_map.mp hv
    obtain ⟨k, hk⟩ := List.mem_iff_getElem?.mp hparam
    have hcopies := hsimplifiable.copies hprepared hf hb
    cases hdrop : droppedAt prepared f.id b.id k
    · exact .inl (List.mem_map_of_mem (mem_eraseAt.mpr ⟨k, hdrop, hk⟩))
    obtain ⟨i, hi, hresults⟩ := hcopies.dropped k param hdrop hk
    obtain ⟨-, param', source, -, -, hcopy, hsource, pairs, hpair, hpairs⟩ := hcopies.copy i hi
    have hvalue : param'.value = param.value := by
      rw [hcopy] at hresults
      simpa using congrArg (List.map (·.value)) hresults
    refine .inr ⟨source, hsource, ⟨i, List.mem_append_left _ hi, by rw [hcopy], ?_⟩, ?_⟩
    · rw [KirInstruction.defs, hresults]
      rfl
    · intro t past frame memory hact
      exact hsimplifiable.source_env hf hact hb hsource hv (hvalue ▸ hpair) hpairs
  · intro r hr f hf hmem
    have hself := KirFunction.simplify_eq_self (f := f) fun p hp heq ↦
      hexhausted r hr p hp (heq ▸ hmem)
    exact List.mem_map.mpr ⟨f, hf, hself⟩

/-! ## Budgets and entries -/

/-- `let p = 0; let q = 0; while (p != 5) { p = 5 - p; q = 5 - q; }`, and the same with two
zeros. -/
def flipTwice : KirModule :=
  ⟨uncheckedConfig, none, [],
    [⟨0, "flip", true, [], .void, [⟨0, .conservative, none, 0, none⟩], [⟨0, 0⟩], [],
      [⟨0, "bb0", [], [], [⟨0, [⟨0, .scalar .u32⟩], .constInt "0", none, none⟩],
          .jump ⟨1, [0, 0], []⟩⟩,
        ⟨1, "bb1", [⟨1, "p", .scalar .u32⟩, ⟨2, "q", .scalar .u32⟩], [],
          [⟨1, [⟨3, .scalar .u32⟩], .constInt "5", none, none⟩,
            ⟨2, [⟨4, .scalar .u32⟩], .binary .sub 3 1 .modular, none, none⟩,
            ⟨3, [⟨5, .scalar .u32⟩], .binary .sub 3 2 .modular, none, none⟩,
            ⟨4, [⟨6, .scalar .bool⟩], .compare .eq 1 3, none, none⟩],
          .branch 6 ⟨2, [], []⟩ ⟨1, [4, 5], []⟩⟩,
        ⟨2, "bb2", [], [], [], .return none [(0, 0)] 0⟩]⟩,
      ⟨1, "flop", true, [], .void, [⟨1, .conservative, none, 1, none⟩], [⟨1, 1⟩], [],
      [⟨3, "bb0", [], [], [⟨5, [⟨7, .scalar .u32⟩], .constInt "0", none, none⟩,
            ⟨6, [⟨8, .scalar .u32⟩], .constInt "0", none, none⟩],
          .jump ⟨4, [7, 8], []⟩⟩,
        ⟨4, "bb1", [⟨9, "p", .scalar .u32⟩, ⟨10, "q", .scalar .u32⟩], [],
          [⟨7, [⟨11, .scalar .u32⟩], .constInt "5", none, none⟩,
            ⟨8, [⟨12, .scalar .u32⟩], .binary .sub 11 9 .modular, none, none⟩,
            ⟨9, [⟨13, .scalar .u32⟩], .binary .sub 11 10 .modular, none, none⟩,
            ⟨10, [⟨14, .scalar .bool⟩], .compare .eq 9 11, none, none⟩],
          .branch 14 ⟨5, [], []⟩ ⟨4, [12, 13], []⟩⟩,
        ⟨5, "bb2", [], [], [], .return none [(1, 1)] 0⟩]⟩]⟩

/-- Two steps are enough for the first function and not for the second. -/
def flipTwiceSimplified : Except String InductionSimplification × KirModule :=
  runInductionSimplification flipTwice [] [[1], [4]] (some 2)

theorem flipTwiceSimplified_result : flipTwiceSimplified.1 = .ok ⟨1, [1]⟩ := by decide +kernel

/-- The first function runs as before with one parameter less, the second is left alone. -/
theorem inductionSimplification_flipTwice :
    flipTwiceSimplified.2 ≠ flipTwice ∧ flipTwiceSimplified.2.Verified ∧
      (flipTwice.functions.getLast?).all (· ∈ flipTwiceSimplified.2.functions) := by
  obtain ⟨hverified, -, -, -, hexhausted⟩ :=
    inductionSimplification_preserves (m := flipTwice) (by decide +kernel) (by decide +kernel)
      (rfl : runInductionSimplification flipTwice [] [[1], [4]] (some 2) =
        (flipTwiceSimplified.1, flipTwiceSimplified.2))
  refine ⟨by decide +kernel, hverified, ?_⟩
  exact decide_eq_true (hexhausted _ flipTwiceSimplified_result _
    (List.mem_cons_of_mem _ (List.mem_singleton_self _)) (List.mem_singleton_self _))

/-- A loop around a loop whose parameters the entry block declares, too.  The function leaves
at once. -/
def entryPair : KirModule :=
  ⟨uncheckedConfig, none, [],
    [⟨0, "leave", true, [], .void, [⟨0, .conservative, none, 0, none⟩], [⟨0, 0⟩], [],
      [⟨0, "bb0", [⟨0, "i", .scalar .u32⟩, ⟨1, "j", .scalar .u32⟩], [],
          [⟨0, [⟨4, .scalar .bool⟩], .constBool true, none, none⟩],
          .branch 4 ⟨3, [], []⟩ ⟨1, [0, 1], []⟩⟩,
        ⟨1, "bb1", [⟨2, "p", .scalar .u32⟩, ⟨3, "q", .scalar .u32⟩], [],
          [⟨1, [⟨5, .scalar .bool⟩], .constBool true, none, none⟩],
          .branch 5 ⟨1, [2, 3], []⟩ ⟨2, [], []⟩⟩,
        ⟨2, "bb2", [], [], [], .jump ⟨0, [2, 2], []⟩⟩,
        ⟨3, "bb3", [], [], [], .return none [(0, 0)] 0⟩]⟩]⟩

def entryPairSimplified : KirModule := (runInductionSimplification entryPair [] [[1]] none).2

def leaveState (m : KirModule) : Option State := m.start "leave" [] fun _ ↦ none

theorem leaveState_isSome : (leaveState entryPair).isSome ∧ (leaveState entryPairSimplified).isSome := by
  decide +kernel

/-- The copy of the entry block reads a parameter that no edge has set. -/
theorem leave_stuck : ((leaveState entryPairSimplified).map fun s ↦
    match step (lp64 zeroFloats) entryPairSimplified s with
    | .stuck => true
    | _ => false) = some true := by
  decide +kernel

theorem leave_halts : ∃ s, leaveState entryPair = some s ∧
    (kirMachine (lp64 zeroFloats) entryPair).Halts s (.returned none (fun _ ↦ none) []) :=
  ⟨_, rfl, Machine.halts_of_run_halt (n := 3) rfl⟩

/-- A module of which one function ran out of steps is changed, and where the entry block takes
parameters a run that returned gets stuck. -/
theorem inductionSimplification_not_allOrNothing :
    (flipTwice.Verified ∧ flipTwiceSimplified.1 = .ok ⟨1, [1]⟩ ∧
      flipTwiceSimplified.2 ≠ flipTwice) ∧
    entryPair.Verified ∧
      (∃ s, leaveState entryPair = some s ∧
        (kirMachine (lp64 zeroFloats) entryPair).Halts s (.returned none (fun _ ↦ none) [])) ∧
      ∃ s, leaveState entryPairSimplified = some s ∧
        ∀ o, ¬ (kirMachine (lp64 zeroFloats) entryPairSimplified).Halts s o := by
  refine ⟨⟨by decide +kernel, by decide +kernel, by decide +kernel⟩, by decide +kernel,
    leave_halts, ?_⟩
  obtain ⟨s, hs⟩ := Option.isSome_iff_exists.mp leaveState_isSome.2
  have hstuck := leave_stuck
  rw [hs, Option.map_some] at hstuck
  refine ⟨s, hs, fun o ↦ Machine.GetsStuck.not_halts ⟨s, .refl s, ?_⟩⟩
  show step (lp64 zeroFloats) entryPairSimplified s = .stuck
  cases hstep : step (lp64 zeroFloats) entryPairSimplified s with
  | stuck => rfl
  | _ =>
      rw [hstep] at hstuck
      cases hstuck

end CalcKernel
