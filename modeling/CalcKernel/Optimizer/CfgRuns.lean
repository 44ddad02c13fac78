import CalcKernel.Optimizer.CfgRemovals
import CalcKernel.Optimizer.CfgThreads
import Mathlib.Data.List.Flatten

/-!
# Runs of canonicalized modules

The pass comes to its end on every module, and every call of the canonicalized module goes as
before: it returns the same value, fails alike or runs for ever.
-/

namespace CalcKernel

open Lib Relation

/-! ## Dead parameters -/

theorem KirModule.refinedBy_pruned (m : KirModule) (protected_ : List ValueId) :
    m.RefinedBy (m.pruned protected_) := by
  intro t name args memory s hs
  obtain ⟨s', hs', hpruned⟩ : ∃ s',
      (m.pruned protected_).start name args memory = some s' ∧ StatePruned protected_ s s' :=
    StatePruned.start hs
  have hmove : ∀ {s s' : State}, StatePruned protected_ s s' →
      MovePruned protected_ ((kirMachine t m).step s) ((kirMachine t (m.pruned protected_)).step s') :=
    fun h ↦ h.step
  have hsim : StutterSimulation (kirMachine t m) (kirMachine t (m.pruned protected_))
      fun _ ↦ StatePruned protected_ := by
    refine ⟨fun {n s r s'} h hstep ↦ .inr ?_, fun {n s o s'} h hstep ↦ ?_⟩
    · have hboth := hmove h
      rw [hstep] at hboth
      generalize hstep' : (kirMachine t (m.pruned protected_)).step s' = move at hboth
      cases hboth with
      | next h' => exact ⟨n, _, .single hstep', h'⟩
    · have hboth := hmove h
      rw [hstep] at hboth
      generalize hstep' : (kirMachine t (m.pruned protected_)).step s' = move at hboth
      cases hboth
      exact ⟨s', .refl s', hstep'⟩
  exact ⟨s', hs', hsim.refines (n := 0) hpruned⟩

/-! ## Distinct identities -/

/-- No identity is used for two blocks or two values. -/
structure KirFunction.Distinct (f : KirFunction) : Prop where
  blocks : f.blockIds.Nodup
  values : f.valueIds.Nodup

namespace KirFunction.Distinct

variable {f : KirFunction} {protected_ : List ValueId}

theorem filter (h : f.Distinct) (p : KirBlock → Bool) :
    ({ f with blocks := f.blocks.filter p } : KirFunction).Distinct where
  blocks := h.blocks.sublist (List.filter_sublist.map _)
  values := h.values.sublist
    ((List.Sublist.refl _).append (List.filter_sublist.flatMap _))

theorem map (h : f.Distinct) {T : KirBlock → KirBlock} (hid : ∀ b, (T b).id = b.id)
    (hparams : ∀ b, (T b).params = b.params)
    (hinstructions : ∀ b, (T b).instructions = b.instructions) :
    ({ f with blocks := f.blocks.map T } : KirFunction).Distinct := by
  constructor
  · show ((f.blocks.map T).map (·.id)).Nodup
    rw [List.map_map, show (·.id) ∘ T = (·.id) from funext hid]
    exact h.blocks
  · have hvalues : ({ f with blocks := f.blocks.map T } : KirFunction).valueIds = f.valueIds := by
      unfold KirFunction.valueIds
      dsimp only
      rw [List.flatMap_map]
      congr 2
      funext b
      rw [hparams, hinstructions]
    exact hvalues ▸ h.values

theorem withoutForwarding (h : f.Distinct) {index : Nat}
    (hindex : forwardingIndex f protected_ = some index) :
    (f.withoutForwarding index).Distinct := by
  obtain ⟨k, bridge, outgoing, rfl, hplace, -, hterminator, -⟩ := forwardingIndex_eq_some hindex
  rw [KirFunction.withoutForwarding, hplace]
  dsimp only
  rw [hterminator]
  dsimp only
  rw [eraseIdx_eq_filter h.blocks hplace]
  exact (h.filter _).map (T := (·.mapEdges (forwardEdge bridge outgoing))) (fun _ ↦ rfl)
    (fun _ ↦ rfl) fun _ ↦ rfl

end KirFunction.Distinct

/-! ## Removing all that forwards -/

section Forwarding

variable {f : KirFunction} {protected_ : List ValueId}

/-- One round. -/
def forwardOnce (protected_ : List ValueId) (f : KirFunction) : KirFunction :=
  match forwardingIndex f protected_ with
  | none => f
  | some index => f.withoutForwarding index

theorem removeForwarding_of_none (h : forwardingIndex f protected_ = none) (rounds : Nat) :
    removeForwarding protected_ rounds f = f := by
  cases rounds with
  | zero => rfl
  | succ rounds => rw [removeForwarding, h]

theorem removeForwarding_succ (rounds : Nat) (f : KirFunction) :
    removeForwarding protected_ (rounds + 1) f =
      removeForwarding protected_ rounds (forwardOnce protected_ f) := by
  rw [removeForwarding, forwardOnce]
  cases h : forwardingIndex f protected_ with
  | none => exact (removeForwarding_of_none h rounds).symm
  | some index => rfl

theorem removeForwarding_add (k j : Nat) (f : KirFunction) :
    removeForwarding protected_ (k + j) f =
      removeForwarding protected_ j (removeForwarding protected_ k f) := by
  induction k generalizing f with
  | zero => rw [Nat.zero_add, removeForwarding]
  | succ k ih => rw [Nat.succ_add, removeForwarding_succ, ih, removeForwarding_succ]

/-- With a round for every block none that only forwards is left. -/
theorem forwardingIndex_removeForwarding {rounds : Nat} (h : f.blocks.length ≤ rounds) :
    forwardingIndex (removeForwarding protected_ rounds f) protected_ = none := by
  induction rounds generalizing f with
  | zero =>
      have hnil : f.blocks = [] := List.length_eq_zero_iff.mp (Nat.le_zero.mp h)
      rw [removeForwarding, forwardingIndex, hnil]
      rfl
  | succ rounds ih =>
      rw [removeForwarding]
      cases hindex : forwardingIndex f protected_ with
      | none => exact hindex
      | some index =>
          have hlength := withoutForwarding_length hindex
          exact ih (by omega)

theorem removeForwarding_eq {rounds : Nat} (h : f.blocks.length ≤ rounds) :
    removeForwarding protected_ rounds f = removeForwarding protected_ f.blocks.length f := by
  obtain ⟨j, rfl⟩ := Nat.exists_eq_add_of_le h
  rw [removeForwarding_add, removeForwarding_of_none (forwardingIndex_removeForwarding le_rfl)]

end Forwarding

/-! ## The steps of the pass -/

section Steps

variable {m : KirModule} {protected_ : List ValueId}

theorem distinct_mapFunctions {T : KirFunction → KirFunction}
    (h : ∀ f ∈ m.functions, f.Distinct) (hT : ∀ f : KirFunction, f.Distinct → (T f).Distinct) :
    ∀ f ∈ (m.mapFunctions T).functions, f.Distinct := by
  intro g hg
  obtain ⟨f, hf, rfl⟩ := List.mem_map.mp hg
  exact hT f (h f hf)

theorem forwardOnce_refined {f : KirFunction} (h : f.Distinct) :
    Nonempty (Rewiring f (forwardOnce protected_ f)) := by
  unfold forwardOnce
  split
  · exact ⟨Rewiring.ofBlocks rfl rfl rfl⟩
  · rename_i hindex
    exact withoutForwarding_refined h.blocks hindex

theorem distinct_forwardOnce {f : KirFunction} (h : f.Distinct) :
    (forwardOnce protected_ f).Distinct := by
  unfold forwardOnce
  split
  · exact h
  · rename_i hindex
    exact h.withoutForwarding hindex

theorem refinedBy_removeForwarding (h : ∀ f ∈ m.functions, f.Distinct) (rounds : Nat) :
    m.RefinedBy (m.mapFunctions (removeForwarding protected_ rounds)) := by
  induction rounds generalizing m with
  | zero =>
      have hsame : m.mapFunctions (removeForwarding protected_ 0) = m := by
        rw [KirModule.mapFunctions, show removeForwarding protected_ 0 = id from rfl, List.map_id]
      rw [hsame]
      exact KirModule.RefinedBy.refl m
  | succ rounds ih =>
      have hround : m.RefinedBy (m.mapFunctions (forwardOnce protected_)) :=
        KirModule.refinedBy_mapFunctions fun f hf ↦ forwardOnce_refined (h f hf)
      have hsame : m.mapFunctions (removeForwarding protected_ (rounds + 1)) =
          (m.mapFunctions (forwardOnce protected_)).mapFunctions
            (removeForwarding protected_ rounds) := by
        simp only [KirModule.mapFunctions, List.map_map]
        congr 2
        funext f
        exact removeForwarding_succ rounds f
      rw [hsame]
      exact hround.trans (ih (distinct_mapFunctions h fun _ ↦ distinct_forwardOnce))

/-- The threading step, with the blocks it leaves alone. -/
def threadStep (protected_ : List ValueId) (f : KirFunction) : KirFunction :=
  f.threadBranches (branchThreads f protected_)
    ((cyclicBranchThreadTargets (branchThreads f protected_)).getD [])

def reachStep (f : KirFunction) : KirFunction := f.removeUnreachable.getD f

def forwardStep (protected_ : List ValueId) (f : KirFunction) : KirFunction :=
  removeForwarding protected_ f.blocks.length f

theorem KirFunction.Distinct.fold {f : KirFunction} (h : f.Distinct) :
    f.foldConstantBranches.Distinct :=
  h.map (T := fun b ↦ { b with terminator := b.terminator.foldConstant f.boolConstants })
    (fun _ ↦ rfl) (fun _ ↦ rfl) fun _ ↦ rfl

theorem KirFunction.Distinct.thread {f : KirFunction} (h : f.Distinct) :
    (threadStep protected_ f).Distinct := by
  unfold threadStep KirFunction.threadBranches
  refine h.map (fun b ↦ ?_) (fun b ↦ ?_) fun b ↦ ?_
  · show (if _ then _ else _ : KirBlock).id = _
    split <;> rfl
  · split <;> rfl
  · split <;> rfl

theorem KirFunction.Distinct.reach {f : KirFunction} (h : f.Distinct) :
    (reachStep f).Distinct := by
  obtain ⟨g, hg⟩ := f.removeUnreachable_returns
  obtain ⟨reachable, hreachable, -⟩ := KirFunction.removeUnreachable_eq hg
  rw [reachStep, hg, Option.getD_some, hreachable]
  exact h.filter _

/-- The pass on one function is its steps in turn. -/
theorem cfgCanonicalize_eq (f : KirFunction) :
    f.cfgCanonicalize protected_ =
      some (((forwardStep protected_ (reachStep
        (threadStep protected_ f.foldConstantBranches))).mergeBranches).pruned protected_) := by
  obtain ⟨cyclic, hcyclic, -⟩ :=
    cyclicBranchThreadTargets_exact (branchThreads f.foldConstantBranches protected_)
  obtain ⟨g, hg⟩ := (f.foldConstantBranches.threadBranches
    (branchThreads f.foldConstantBranches protected_) cyclic).removeUnreachable_returns
  unfold KirFunction.cfgCanonicalize threadStep reachStep
  simp only [hcyclic, Option.getD_some, Option.bind_eq_bind, Option.bind_some, hg]
  congr 1
  split
  · rename_i hempty
    have hnil : g.blocks = [] := List.isEmpty_iff.mp hempty
    have hforward : forwardStep protected_ g = g := by
      rw [forwardStep, hnil]
      rfl
    have hmerge : g.mergeBranches = g := by
      rw [KirFunction.mergeBranches, hnil, List.map_nil, ← hnil]
    have hprune : g.pruned protected_ = g := by
      rw [KirFunction.pruned_eq, hnil, List.map_nil, ← hnil]
    rw [hforward, hmerge, hprune]
  · rfl

theorem forwardStep_eq {f : KirFunction} {rounds : Nat} (h : f.blocks.length ≤ rounds) :
    forwardStep protected_ f = removeForwarding protected_ rounds f :=
  (removeForwarding_eq h).symm

/-- The functions of one module are all given rounds enough. -/
theorem refinedBy_forwardStep (h : ∀ f ∈ m.functions, f.Distinct) :
    m.RefinedBy (m.mapFunctions (forwardStep protected_)) := by
  have hsame : m.mapFunctions (forwardStep protected_) = m.mapFunctions
      (removeForwarding protected_ (m.functions.map (·.blocks.length)).sum) := by
    unfold KirModule.mapFunctions
    congr 1
    exact List.map_congr_left fun f hf ↦ forwardStep_eq
      (List.single_le_sum (fun _ _ ↦ Nat.zero_le _) _ (List.mem_map_of_mem hf))
  rw [hsame]
  exact refinedBy_removeForwarding h _

/-- All steps but the last. -/
def branchSteps (protected_ : List ValueId) (f : KirFunction) : KirFunction :=
  (forwardStep protected_ (reachStep
    (threadStep protected_ f.foldConstantBranches))).mergeBranches

theorem refinedBy_branchSteps (h : ∀ f ∈ m.functions, f.Distinct) :
    m.RefinedBy (m.mapFunctions (branchSteps protected_)) := by
  have hfold : ∀ f ∈ (m.mapFunctions KirFunction.foldConstantBranches).functions, f.Distinct :=
    distinct_mapFunctions h fun _ ↦ KirFunction.Distinct.fold
  have hthread := distinct_mapFunctions hfold (T := threadStep protected_)
    fun _ ↦ KirFunction.Distinct.thread
  have hreach := distinct_mapFunctions hthread fun _ ↦ KirFunction.Distinct.reach
  have hsame : m.mapFunctions (branchSteps protected_) =
      ((((m.mapFunctions KirFunction.foldConstantBranches).mapFunctions
        (threadStep protected_)).mapFunctions reachStep).mapFunctions
          (forwardStep protected_)).mapFunctions KirFunction.mergeBranches := by
    simp only [KirModule.mapFunctions_mapFunctions]
    rfl
  rw [hsame]
  refine (KirModule.refinedBy_mapFunctions fun f hf ↦ ⟨foldRewiring (h f hf).values⟩).trans ?_
  refine (KirModule.refinedBy_mapFunctions (T := threadStep protected_) fun f hf ↦
    ⟨threadRewiring (hfold f hf).blocks (hfold f hf).values protected_ _⟩).trans ?_
  refine (KirModule.refinedBy_mapFunctions (T := reachStep) fun f hf ↦ ?_).trans ?_
  · obtain ⟨g, hg⟩ := f.removeUnreachable_returns
    rw [reachStep, hg]
    exact KirFunction.removeUnreachable_refined hg
  · exact (refinedBy_forwardStep hreach).trans
      (KirModule.refinedBy_mapFunctions fun f _ ↦ ⟨mergeRewiring f⟩)

end Steps

theorem mapM_eq_some {α β : Type*} {F : α → Option β} {G : α → β} (h : ∀ x, F x = some (G x))
    (l : List α) : l.mapM F = some (l.map G) := by
  rw [show F = fun x ↦ some (G x) from funext h]
  exact List.mapM_pure

/-- The CFG pass ends on every module, and keeps what its functions do. -/
theorem runCfgCanonicalize_refines (m : KirModule) (protected_ : List ValueId)
    (h : ∀ f ∈ m.functions, f.Distinct) :
    ∃ m', runCfgCanonicalize m protected_ = some m' ∧ m.RefinedBy m' := by
  refine ⟨(m.mapFunctions (branchSteps protected_)).pruned protected_, ?_,
    (refinedBy_branchSteps h).trans (KirModule.refinedBy_pruned _ protected_)⟩
  rw [runCfgCanonicalize, mapM_eq_some cfgCanonicalize_eq]
  simp only [KirModule.pruned, KirModule.mapFunctions, List.map_map, Option.map_some]
  rfl

/-- `if (true) { } else { }`, the condition handed to the block that asks for it. -/
def detourModule : KirModule :=
  ⟨⟨.c, .unchecked, .unchecked, .disabled⟩, none, [],
    [⟨0, "detour", true, [], .void, [⟨0, .conservative, none, 0, none⟩], [⟨0, 0⟩], [],
      [⟨0, "bb0", [], [], [⟨0, [⟨0, .scalar .bool⟩], .constBool true, none, none⟩],
          .jump ⟨1, [0], []⟩⟩,
        ⟨1, "bb1", [⟨1, "p", .scalar .bool⟩], [], [], .branch 1 ⟨2, [], []⟩ ⟨3, [], []⟩⟩,
        ⟨2, "bb2", [], [], [], .jump ⟨4, [], []⟩⟩,
        ⟨3, "bb3", [], [], [], .jump ⟨4, [], []⟩⟩,
        ⟨4, "bb4", [], [], [], .return none [(0, 0)] 0⟩]⟩]⟩

/-- Two of the five blocks are left, and the call goes as before. -/
theorem runCfgCanonicalize_detour :
    ∃ m', runCfgCanonicalize detourModule [] = some m' ∧
      m'.functions.map (·.blockIds) = [[0, 4]] ∧ detourModule.RefinedBy m' := by
  obtain ⟨m', hrun, hrefined⟩ := runCfgCanonicalize_refines detourModule [] fun f hf ↦ by
    obtain rfl := List.mem_singleton.mp hf
    exact ⟨by decide +kernel, by decide +kernel⟩
  refine ⟨m', hrun, ?_, hrefined⟩
  have hblocks : (runCfgCanonicalize detourModule []).map
      (·.functions.map (·.blockIds)) = some [[0, 4]] := by decide +kernel
  rw [hrun] at hblocks
  exact Option.some.inj hblocks

end CalcKernel
