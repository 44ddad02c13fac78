import CalcKernel.Optimizer.CfgCanonicalize

/-!
# CFG canonicalization keeps runs

Every step of the pass is a rewiring.  Only the edges through constant branches need something
of the values: where a boolean constant is defined, it has its value.
-/

namespace CalcKernel

open Lib Relation

/-! ## Undefined values -/

theorem Location.write_undefined {t : TargetModel} {env env' : Env} {m m' : Memory} {type : MirType}
    {loc : Location} {x : KirValue} (h : loc.write t env m type x = some (env', m')) {v : ValueId}
    (hv : env v = none) : env' v = none := by
  cases loc with
  | memory a =>
      obtain ⟨_, _, h⟩ := Option.map_eq_some_iff.mp h
      cases h
      exact hv
  | «local» u path =>
      cases path with
      | nil => cases h
      | cons name path =>
          obtain ⟨old, hold, h⟩ := Option.bind_eq_some_iff.mp h
          obtain ⟨new, hnew, h⟩ := Option.map_eq_some_iff.mp h
          cases h
          rw [Env.set_of_ne env, hv]
          rintro rfl
          rw [hv] at hold
          cases hold

/-- What an instruction does not define stays undefined. -/
theorem Stepped.undefined {t : TargetModel} {env env' : Env} {i : KirInstruction}
    (h : Stepped t env i env') {v : ValueId} (hdefs : v ∉ i.defs) (hv : env v = none) :
    env' v = none := by
  cases h with
  | call hkind hbind => rw [Env.bindResults_of_notMem hbind hdefs, hv]
  | execute h =>
      unfold executeInstruction at h
      split at h
      · obtain ⟨failed, _, h⟩ := Option.map_eq_some_iff.mp h
        cases failed <;> simp at h
        rw [← h.1, hv]
      · obtain ⟨loc, _, h⟩ := Option.bind_eq_some_iff.mp h
        obtain ⟨y, _, h⟩ := Option.bind_eq_some_iff.mp h
        obtain ⟨⟨e, m₁⟩, hwrite, h⟩ := Option.map_eq_some_iff.mp h
        cases h
        exact Location.write_undefined hwrite hv
      · obtain ⟨a, _, h⟩ := Option.bind_eq_some_iff.mp h
        obtain ⟨xs, _, h⟩ := Option.bind_eq_some_iff.mp h
        obtain ⟨m₁, _, h⟩ := Option.map_eq_some_iff.mp h
        cases h
        exact hv
      · obtain ⟨xs, _, h⟩ := Option.map_eq_some_iff.mp h
        cases h
        exact hv
      · obtain ⟨xs, _, h⟩ := Option.bind_eq_some_iff.mp h
        obtain ⟨e, hbind, h⟩ := Option.map_eq_some_iff.mp h
        cases h
        rw [Env.bindResults_of_notMem hbind hdefs, hv]

/-! ## Constants -/

/-- The boolean constants that are defined have their values. -/
def KirFunction.ConstantsHold (f : KirFunction) (env : Env) : Prop :=
  ∀ p ∈ f.boolConstants, ∀ x, env p.1 = some x → x = .bool p.2

namespace KirFunction

variable {f : KirFunction} {env env' : Env} {t : TargetModel}

theorem mem_boolConstants {p : ValueId × Bool} (h : p ∈ f.boolConstants) :
    ∃ i ∈ f.instructions, i.kind = .constBool p.2 ∧ p.1 ∈ i.defs ∧
      ∃ r, i.results.head? = some r ∧ r.value = p.1 := by
  obtain ⟨i, hi, h⟩ := List.mem_filterMap.mp h
  split at h
  · rename_i hkind
    obtain ⟨r, hr, rfl⟩ := Option.map_eq_some_iff.mp h
    exact ⟨i, hi, hkind, List.mem_map_of_mem (List.mem_of_mem_head? hr), r, hr, rfl⟩
  · cases h

theorem ConstantsHold.enter (hvalues : f.valueIds.Nodup) {args : List KirValue} {F : Frame}
    (h : f.enter args = some F) : f.ConstantsHold F.env := by
  intro p hp x hx
  obtain ⟨i, hi, -, hdefs, -⟩ := mem_boolConstants hp
  obtain ⟨-, b, -, rfl⟩ := KirFunction.enter_eq_some h
  have hparam := param_notMem_defs hvalues hi hdefs
  dsimp only at hx
  rw [Env.setAll_of_notMem fun hmem ↦ hparam (mem_of_mem_map_fst_zip hmem)] at hx
  cases hx

theorem ConstantsHold.step (h : f.ConstantsHold env) (hvalues : f.valueIds.Nodup)
    {i : KirInstruction} (hi : i ∈ f.instructions) (hstep : Stepped t env i env') :
    f.ConstantsHold env' := by
  intro p hp x hx
  obtain ⟨j, hj, hkind, hjdefs, r, hr, hvalue⟩ := mem_boolConstants hp
  by_cases hdefs : p.1 ∈ i.defs
  · obtain rfl := instruction_unique hvalues hi hj hdefs hjdefs
    cases hstep with
    | call hcall => rw [hkind] at hcall; cases hcall
    | execute hexecute =>
        simp only [executeInstruction, evalInstruction, hkind, Option.bind_some] at hexecute
        obtain ⟨e, hbind, heq⟩ := Option.map_eq_some_iff.mp hexecute
        cases heq
        have hnew := Env.bindResults_getElem? hbind (defs_nodup hvalues hi) (k := 0)
          (by rwa [← List.head?_eq_getElem?]) rfl
        rw [hvalue, hx] at hnew
        exact Option.some.inj hnew
  · cases hold : env p.1 with
    | none =>
        rw [hstep.undefined hdefs hold] at hx
        cases hx
    | some y =>
        obtain rfl := h p hp y hold
        have hkeep := hstep.ran.keeps p.1 hdefs
        have hscalar : env.scalar p.1 = some (.bool p.2) := Env.scalar_eq_some.mpr ⟨hold, rfl⟩
        have hnew := (Env.scalar_eq_some.mp (hkeep.trans hscalar)).1
        exact Option.some.inj (hx.symm.trans hnew)

theorem ConstantsHold.follow (h : f.ConstantsHold env) (hvalues : f.valueIds.Nodup) {c : KirBlock}
    (hc : c ∈ f.blocks) {xs : List KirValue} :
    f.ConstantsHold (env.setAll ((c.params.map (·.value)).zip xs)) := by
  intro p hp x hx
  obtain ⟨i, hi, -, hdefs, -⟩ := mem_boolConstants hp
  have hparam := blockParam_notMem_defs hvalues hi hdefs hc
  rw [Env.setAll_of_notMem fun hmem ↦ hparam (mem_of_mem_map_fst_zip hmem)] at hx
  exact h p hp x hx

theorem ConstantsHold.boolOperand (h : f.ConstantsHold env) {p : ValueId × Bool}
    (hp : p ∈ f.boolConstants) {x : Bool} (hx : boolOperand env p.1 = some x) : x = p.2 := by
  unfold CalcKernel.boolOperand at hx
  split at hx
  · rename_i hvalue
    cases hx
    have hbool := h p hp _ hvalue
    cases hbool
    rfl
  · cases hx

end KirFunction

/-! ## Blocks that keep their identities -/

theorem block?_map {f : KirFunction} {T : KirBlock → KirBlock} (hid : ∀ b, (T b).id = b.id)
    {id : BlockId} {b : KirBlock} (h : f.block? id = some b) :
    ({ f with blocks := f.blocks.map T } : KirFunction).block? id = some (T b) := by
  have hsame : (fun b : KirBlock ↦ decide (b.id = id)) ∘ T = fun b ↦ decide (b.id = id) := by
    funext b
    rw [Function.comp_apply, hid]
  rw [KirFunction.block?, List.find?_map, hsame, ← KirFunction.block?, h, Option.map_some]

def foldRewiring {f : KirFunction} (hvalues : f.valueIds.Nodup) :
    Rewiring f f.foldConstantBranches :=
  Rewiring.ofTerminators f.ConstantsHold (fun _ ↦ True)
    (fun b ↦ b.terminator.foldConstant f.boolConstants) rfl rfl
    (fun b hb ↦ ⟨trivial, by rw [KirFunction.foldConstantBranches, List.head?_map, hb]; rfl⟩)
    (fun hb _ ↦ block?_map (T := fun b ↦
      { b with terminator := b.terminator.foldConstant f.boolConstants }) (fun _ ↦ rfl) hb)
    (fun h ↦ by rw [h]; rfl)
    (by
      intro b _ _ env e hknown htaken
      refine ⟨?_, fun _ _ ↦ trivial⟩
      cases hterminator : b.terminator with
      | «return» | jump =>
          rw [hterminator] at htaken
          exact htaken
      | branch condition thenEdge elseEdge =>
          rw [hterminator] at htaken
          unfold KirTerminator.foldConstant
          dsimp only
          cases hlookup : f.boolConstants.lookup condition with
          | none => exact htaken
          | some constant =>
              obtain ⟨x, hx, rfl⟩ := Option.map_eq_some_iff.mp htaken
              obtain rfl := hknown.boolOperand (mem_of_lookup hlookup) hx
              rfl)
    (fun h ↦ KirFunction.ConstantsHold.enter hvalues h)
    (fun hb hi h hstep ↦ h.step hvalues (KirFunction.mem_instructions.mpr ⟨_, hb, hi⟩) hstep)
    (fun hc h ↦ h.follow hvalues hc)

def mergeRewiring (f : KirFunction) : Rewiring f f.mergeBranches :=
  Rewiring.ofTerminators (fun _ ↦ True) (fun _ ↦ True) (fun b ↦ b.terminator.mergeEdges) rfl rfl
    (fun b hb ↦ ⟨trivial, by rw [KirFunction.mergeBranches, List.head?_map, hb]; rfl⟩)
    (fun hb _ ↦ block?_map (T := fun b ↦ { b with terminator := b.terminator.mergeEdges })
      (fun _ ↦ rfl) hb)
    (fun h ↦ by rw [h]; rfl)
    (by
      intro b _ _ env e _ htaken
      refine ⟨?_, fun _ _ ↦ trivial⟩
      cases hterminator : b.terminator with
      | «return» | jump =>
          rw [hterminator] at htaken
          exact htaken
      | branch condition thenEdge elseEdge =>
          rw [hterminator] at htaken
          unfold KirTerminator.mergeEdges
          dsimp only
          split
          · rename_i hsame
            obtain ⟨x, -, rfl⟩ := Option.map_eq_some_iff.mp htaken
            cases x
            · rw [hsame]; rfl
            · rfl
          · exact htaken)
    (fun _ ↦ trivial) (fun _ _ _ _ ↦ trivial) (fun _ _ ↦ trivial)

/-! ## Skipped blocks -/

theorem KirTerminator.mapEdges_taken (g : KirEdge → KirEdge) (terminator : KirTerminator)
    (env : Env) : (terminator.mapEdges g).taken env = (terminator.taken env).map g := by
  cases terminator with
  | «return» | jump => rfl
  | branch condition thenEdge elseEdge =>
      simp only [mapEdges, taken, Option.map_map]
      congr 1
      funext x
      cases x <;> rfl

/-- The blocks that are skipped: their parameters are used nowhere else. -/
structure Skipped (f : KirFunction) (protected_ : List ValueId) (skipped : KirBlock → Prop) :
    Prop where
  mem : ∀ {b}, skipped b → b ∈ f.blocks
  nonlocal : ∀ {b}, skipped b → hasNonlocalParameterUses f b protected_ = false

namespace Skipped

variable {f : KirFunction} {protected_ : List ValueId} {skipped : KirBlock → Prop}

/-- The parameters of the skipped blocks. -/
def Hidden (skipped : KirBlock → Prop) (v : ValueId) : Prop :=
  ∃ b, skipped b ∧ v ∈ b.params.map (·.value)

/-- No other block uses the parameters of a skipped one. -/
theorem notMem_uses (h : Skipped f protected_ skipped) {bridge b : KirBlock}
    (hbridge : skipped bridge) (hb : b ∈ f.blocks) (hne : b.id ≠ bridge.id) {v : ValueId}
    (hv : v ∈ bridge.params.map (·.value)) :
    (∀ i ∈ b.instructions, v ∉ i.uses) ∧ v ∉ b.terminator.uses := by
  have hnonlocal := h.nonlocal hbridge
  unfold hasNonlocalParameterUses at hnonlocal
  simp only [Bool.or_eq_false_iff] at hnonlocal
  have hother := List.any_eq_false.mp hnonlocal.2 b
    (List.mem_filter.mpr ⟨hb, decide_eq_true hne⟩)
  simp only [Bool.or_eq_true, not_or, KirBlock.usesValues, Bool.not_eq_true] at hother
  refine ⟨fun i hi huse ↦ ?_, fun huse ↦ ?_⟩
  · exact List.any_eq_false.mp (Bool.eq_false_iff.mpr
      (List.any_eq_false.mp hother.1.1 i hi)) v huse (decide_eq_true hv)
  · exact List.any_eq_false.mp hother.1.2 v huse (decide_eq_true hv)

/-- What a block uses it sees. -/
theorem sees (h : Skipped f protected_ skipped) (hids : f.blockIds.Nodup) {b : KirBlock}
    (hb : b ∈ f.blocks) {v : ValueId}
    (huse : (∃ i ∈ b.instructions, v ∈ i.uses) ∨ v ∈ b.terminator.uses) :
    b.Sees (Hidden skipped) v := by
  by_cases hparam : v ∈ b.params.map (·.value)
  · exact .inl hparam
  refine .inr ?_
  rintro ⟨bridge, hbridge, hv⟩
  by_cases hid : b.id = bridge.id
  · rw [KirFunction.block_ext hids hb (h.mem hbridge) hid] at hparam
    exact hparam hv
  · obtain ⟨hinstructions, hterminator⟩ := h.notMem_uses hbridge hb hid hv
    rcases huse with ⟨i, hi, huse⟩ | huse
    · exact hinstructions i hi huse
    · exact hterminator huse

theorem sees_arg (h : Skipped f protected_ skipped) (hids : f.blockIds.Nodup) {b : KirBlock}
    (hb : b ∈ f.blocks) {edge : KirEdge} (hedge : edge ∈ b.terminator.edges) {a : ValueId}
    (ha : a ∈ edge.args) : b.Sees (Hidden skipped) a :=
  h.sees hids hb (.inr (List.mem_append_right _ (List.mem_flatMap.mpr ⟨edge, hedge, ha⟩)))

theorem sees_condition (h : Skipped f protected_ skipped) (hids : f.blockIds.Nodup) {b : KirBlock}
    (hb : b ∈ f.blocks) {condition : ValueId} {thenEdge elseEdge : KirEdge}
    (hterminator : b.terminator = .branch condition thenEdge elseEdge) :
    b.Sees (Hidden skipped) condition := by
  refine h.sees hids hb (.inr (List.mem_append_left _ ?_))
  rw [hterminator]
  exact List.mem_singleton_self _

theorem taken_congr (h : Skipped f protected_ skipped) (hids : f.blockIds.Nodup) {b : KirBlock}
    (hb : b ∈ f.blocks) {env env' : Env} (hagree : Env.Agree (b.Sees (Hidden skipped)) env env') :
    b.terminator.taken env = b.terminator.taken env' := by
  cases hterminator : b.terminator with
  | «return» | jump => rfl
  | branch condition thenEdge elseEdge =>
      rw [KirTerminator.taken, KirTerminator.taken,
        boolOperand_congr (hagree condition (h.sees_condition hids hb hterminator))]

/-- Blocks whose edges are replaced by such they lead on to. -/
def rewiring {g : KirFunction} (h : Skipped f protected_ skipped) (hids : f.blockIds.Nodup)
    (known : Env → Prop) (keep : KirBlock → Prop) (edges : KirBlock → KirEdge → KirEdge)
    (bound : Nat) (name : g.name = f.name) (params : g.params = f.params)
    (entry : ∀ b, f.blocks.head? = some b → keep b ∧
      g.blocks.head? = some (b.mapEdges (edges b)))
    (block : ∀ {id b}, f.block? id = some b → keep b → g.block? id = some (b.mapEdges (edges b)))
    (leads : ∀ {b}, b ∈ f.blocks → keep b → ∀ edge ∈ b.terminator.edges,
      (∃ n ≤ bound, LeadsTo f (Hidden skipped) known n edge (edges b edge)) ∧
        ∀ c, f.block? (edges b edge).target = some c → keep c)
    (known_enter : ∀ {args F}, f.enter args = some F → known F.env)
    (known_step : ∀ {b i t env env'}, b ∈ f.blocks → i ∈ b.instructions → known env →
      Stepped t env i env' → known env')
    (known_follow : ∀ {c env} {xs : List KirValue}, c ∈ f.blocks → known env →
      known (env.setAll ((c.params.map (·.value)).zip xs))) : Rewiring f g where
  hidden := Hidden skipped
  known := known
  keep := keep
  blocks b := b.mapEdges (edges b)
  bound := bound
  name := name
  functionParams := params
  entry := entry
  block := block
  params _ := rfl
  instructions _ := rfl
  sees hb _ i hi _ hv := h.sees hids hb (.inl ⟨i, hi, hv⟩)
  «return» := by
    intro b hb _ value versions effectOrder hterminator
    refine ⟨by rw [KirBlock.mapEdges, hterminator]; rfl, fun v hv ↦ ?_⟩
    refine h.sees hids hb (.inr (List.mem_append_left _ ?_))
    rw [hterminator]
    exact Option.mem_toList.mpr hv
  edge := by
    intro b hb hkeep env env' e _ hagree htaken
    have hmem := KirTerminator.taken_mem_edges htaken
    obtain ⟨⟨n, hn, hleads⟩, hkept⟩ := leads hb hkeep e hmem
    refine ⟨fun a ha ↦ h.sees_arg hids hb hmem ha, n, hn, edges b e, ?_, hleads, hkept⟩
    rw [KirBlock.mapEdges, KirTerminator.mapEdges_taken, ← h.taken_congr hids hb hagree, htaken,
      Option.map_some]
  known_enter := known_enter
  known_step := known_step
  known_follow := known_follow

end Skipped

/-! ## Threading -/

section Threads

variable {f : KirFunction} {protected_ : List ValueId} {b : KirBlock} {edge edge' : KirEdge}

theorem mem_branchThreads (h : b ∈ branchThreads f protected_) :
    b ∈ f.blocks ∧ b.instructions = [] ∧ hasNonlocalParameterUses f b protected_ = false ∧
      ∃ condition thenEdge elseEdge, b.terminator = .branch condition thenEdge elseEdge := by
  obtain ⟨h, hnonlocal⟩ := List.mem_filter.mp h
  obtain ⟨hmem, h⟩ := List.mem_filter.mp h
  obtain ⟨hempty, h⟩ := (Bool.and_eq_true _ _).mp h
  refine ⟨hmem, List.isEmpty_iff.mp hempty, by simpa using hnonlocal, ?_⟩
  split at h
  · exact ⟨_, _, _, by assumption⟩
  · cases h

theorem mem_of_threadAt {branches : List KirBlock} {id : BlockId}
    (h : threadAt branches id = some b) : b ∈ branches ∧ b.id = id := by
  have hb := List.find?_some h
  exact ⟨List.mem_reverse.mp (List.mem_of_find?_eq_some h), by simpa using hb⟩

theorem block?_of_threadAt (hids : f.blockIds.Nodup) {id : BlockId}
    (h : threadAt (branchThreads f protected_) id = some b) : f.block? id = some b := by
  obtain ⟨hmem, rfl⟩ := mem_of_threadAt h
  exact KirFunction.block?_of_mem hids (mem_branchThreads hmem).1

theorem skipped_branchThreads (f : KirFunction) (protected_ : List ValueId) :
    Skipped f protected_ (· ∈ branchThreads f protected_) :=
  ⟨fun h ↦ (mem_branchThreads h).1, fun h ↦ (mem_branchThreads h).2.2.1⟩

/-- An edge threaded through a block leads on behind it: the argument for the condition is a
constant, and the branch goes where the constant says. -/
theorem threadOnce_leadsOn (hids : f.blockIds.Nodup) (hvalues : f.valueIds.Nodup)
    {cyclic : List BlockId}
    (h : threadOnce (branchThreads f protected_) cyclic f.boolConstants edge = some edge') :
    ∃ b out, LeadsOn f (Skipped.Hidden (· ∈ branchThreads f protected_)) f.ConstantsHold edge b
      out ∧ edge' = edge.through b out := by
  unfold threadOnce at h
  split at h
  · cases h
  split at h
  · cases h
  rename_i b hb
  split at h
  case h_2 => cases h
  rename_i condition thenEdge elseEdge hterminator
  obtain ⟨h, -⟩ := Option.filter_eq_some_iff.mp h
  obtain ⟨index, hindex, h⟩ := Option.bind_eq_some_iff.mp h
  obtain ⟨value, hvalue, h⟩ := Option.bind_eq_some_iff.mp h
  obtain ⟨constant, hconstant, h⟩ := Option.bind_eq_some_iff.mp h
  cases h
  obtain ⟨hbranch, -⟩ := mem_of_threadAt hb
  obtain ⟨hmem, hempty, -⟩ := mem_branchThreads hbranch
  have hskipped := skipped_branchThreads f protected_
  have hout : (if constant then thenEdge else elseEdge) ∈ b.terminator.edges := by
    rw [hterminator]
    cases constant <;> simp [KirTerminator.edges]
  refine ⟨b, _, ⟨block?_of_threadAt hids hb, hempty, fun p hp ↦ ⟨b, hbranch,
    List.mem_map_of_mem hp⟩, fun a ha ↦ hskipped.sees_arg hids hmem hout ha, ?_⟩, rfl⟩
  intro env env' xs hknown hxs hlength hagree
  obtain ⟨hlt, hcondition, -⟩ := List.findIdx?_eq_some_iff_getElem.mp hindex
  have hparam : (b.params.map (·.value))[index]? = some condition := by
    rw [List.getElem?_map, List.getElem?_eq_getElem hlt, Option.map_some]
    exact congrArg some (by simpa using hcondition)
  obtain ⟨x, -, hx⟩ := Env.getAll_getElem? hxs hvalue
  obtain rfl := hknown _ (List.mem_reverse.mp (mem_of_lookup hconstant)) x hx
  have hset := Env.setAll_params hxs (by rwa [List.length_map])
    (KirFunction.params_nodup hvalues hmem) hparam hvalue
  have henv : boolOperand env' condition = some constant := by
    rw [boolOperand, hagree condition (.inl (List.mem_of_getElem? hparam)), hset, hx]
  rw [hterminator, KirTerminator.taken, henv, Option.map_some]

theorem threadEdge_leadsTo (hids : f.blockIds.Nodup) (hvalues : f.valueIds.Nodup)
    (cyclic : List BlockId) (rounds : Nat) (visited : List BlockId) (edge : KirEdge) :
    ∃ n ≤ rounds, LeadsTo f (Skipped.Hidden (· ∈ branchThreads f protected_)) f.ConstantsHold n
      edge (threadEdge (branchThreads f protected_) cyclic f.boolConstants rounds visited edge) := by
  induction rounds generalizing visited edge with
  | zero => exact ⟨0, le_rfl, .refl edge⟩
  | succ rounds ih =>
      unfold threadEdge
      split
      · exact ⟨0, Nat.zero_le _, .refl edge⟩
      cases hround : threadOnce (branchThreads f protected_) cyclic f.boolConstants edge with
      | none => exact ⟨0, Nat.zero_le _, .refl edge⟩
      | some edge' =>
          obtain ⟨b, out, hon, rfl⟩ := threadOnce_leadsOn hids hvalues hround
          obtain ⟨n, hn, hleads⟩ := ih (edge.target :: visited) (edge.through b out)
          exact ⟨n + 1, Nat.succ_le_succ hn, .step hon hleads⟩

def threadRewiring (hids : f.blockIds.Nodup) (hvalues : f.valueIds.Nodup)
    (protected_ : List ValueId) (cyclic : List BlockId) :
    Rewiring f (f.threadBranches (branchThreads f protected_) cyclic) :=
  have hsame : ∀ b : KirBlock, (if b.id ∈ cyclic then b
      else b.mapEdges (threadEdge (branchThreads f protected_) cyclic f.boolConstants
        (branchThreads f protected_).length [])) = b.mapEdges (fun edge ↦
          if b.id ∈ cyclic then edge
          else threadEdge (branchThreads f protected_) cyclic f.boolConstants
            (branchThreads f protected_).length [] edge) := by
    intro b
    split
    · rw [KirBlock.mapEdges]
      cases hterminator : b.terminator <;> simp only [KirTerminator.mapEdges, ← hterminator]
    · rfl
  (skipped_branchThreads f protected_).rewiring hids f.ConstantsHold (fun _ ↦ True)
    (fun b edge ↦ if b.id ∈ cyclic then edge
      else threadEdge (branchThreads f protected_) cyclic f.boolConstants
        (branchThreads f protected_).length [] edge)
    (branchThreads f protected_).length rfl rfl
    (fun b hb ↦ ⟨trivial, by
      rw [KirFunction.threadBranches, List.head?_map, hb, Option.map_some, hsame]⟩)
    (fun {id b} hb _ ↦ by
      rw [← hsame]
      exact block?_map (T := fun b ↦ if b.id ∈ cyclic then b
        else b.mapEdges (threadEdge (branchThreads f protected_) cyclic f.boolConstants
          (branchThreads f protected_).length [])) (fun b ↦ by split <;> rfl) hb)
    (by
      intro b _ _ edge _
      refine ⟨?_, fun _ _ ↦ trivial⟩
      split
      · exact ⟨0, Nat.zero_le _, .refl edge⟩
      · exact threadEdge_leadsTo hids hvalues cyclic _ [] edge)
    (fun h ↦ KirFunction.ConstantsHold.enter hvalues h)
    (fun hb hi h hstep ↦ h.step hvalues (KirFunction.mem_instructions.mpr ⟨_, hb, hi⟩) hstep)
    (fun hc h ↦ h.follow hvalues hc)

end Threads

end CalcKernel
