import CalcKernel.Kir.Dominance
import CalcKernel.Optimizer.ContractRetention
import CalcKernel.Optimizer.ContractTruth

/-!
# Contract records and rewritten modules

A contract set is built by imports, rebuilds and clones.  However it came about, what
a rewrite leaves of it says the same about the same values, in what is left of the
scopes the records had.
-/

namespace CalcKernel

open Lib

/-! ## Appended leaves, again from the result -/

theorem FactArena.tryInsert_lt {arena : FactArena} {origin : FactOrigin} {scope : FactScope}
    {predicate : FactPredicate} {derivation : FactDerivation} {result : FactId × FactArena}
    (h : arena.tryInsert origin scope predicate derivation = .ok result) :
    arena.facts.length < arenaIdentities ∧
      result.2.facts.length = arena.facts.length + 1 := by
  unfold tryInsert at h
  split at h
  · cases h
  · split at h
    · rename_i hlt
      cases h
      exact ⟨hlt, List.length_append⟩
    · cases h

namespace ContractFactSet

variable {set set' : ContractFactSet}

theorem foldlM_tryInsert_le {instance_ : ContractInstanceId} {scope : FactScope}
    {insert : List FactId × FactArena → FactPredicate → Except String (List FactId × FactArena)}
    (hinsert : ∀ ids arena predicate, insert (ids, arena) predicate =
      (arena.tryInsert (.trustedContract instance_) scope predicate .trustedContractLeaf).map
        fun (id, arena) ↦ (ids ++ [id], arena))
    {predicates : List FactPredicate} {ids : List FactId} {arena : FactArena}
    {result : List FactId × FactArena} (h : predicates.foldlM insert (ids, arena) = .ok result)
    (hle : arena.facts.length ≤ arenaIdentities) :
    arena.facts.length + predicates.length ≤ arenaIdentities := by
  induction predicates generalizing ids arena with
  | nil => exact hle
  | cons predicate predicates ih =>
      rw [List.foldlM_cons, hinsert] at h
      cases hleaf : arena.tryInsert (.trustedContract instance_) scope predicate
          .trustedContractLeaf with
      | error e =>
          rw [hleaf] at h
          cases h
      | ok inserted =>
          rw [hleaf] at h
          obtain ⟨hlt, hlength⟩ := FactArena.tryInsert_lt hleaf
          have hrest := ih h (by rw [hlength]; exact hlt)
          rw [hlength] at hrest
          rw [List.length_cons]
          omega

/-- Leaves that could be inserted fit. -/
theorem insertLeaves_ok {arena : FactArena} {instance_ : ContractInstanceId} {scope : FactScope}
    {predicates : List FactPredicate} {result : List FactId × FactArena}
    (h : insertLeaves arena instance_ scope predicates = .ok result)
    (hle : arena.facts.length ≤ arenaIdentities) :
    arena.facts.length + predicates.length ≤ arenaIdentities ∧
      result = (List.range' arena.facts.length predicates.length,
        arena.extend instance_ (predicates.map fun predicate ↦ (scope, predicate))) := by
  have hlength := foldlM_tryInsert_le (fun _ _ _ ↦ rfl) h hle
  rw [insertLeaves_eq arena instance_ scope predicates hlength] at h
  exact ⟨hlength, (Except.ok.inj h).symm⟩

/-- A set that could be appended to has one more instance, with its leaves. -/
theorem appendContractInstance_ok (hordered : set.Ordered) {callee : FunctionId}
    {source : ContractInstanceSource} {bindings : List ContractFactBinding}
    {predicates : List ContractFactPredicate} {scope : FactScope}
    (h : set.appendContractInstance callee source bindings predicates scope = .ok set')
    (hscope : ∀ facts, ContractFactInstance.Scopes
      ⟨set.instances.length, callee, source, bindings, facts⟩ scope)
    (hsource : ∀ origin function clone, source ≠ .inlineClone origin function clone) :
    set'.Ordered := by
  unfold appendContractInstance nextContractInstanceId at h
  split at h
  case isFalse => cases h
  rename_i hlt
  change (Except.bind (insertLeaves _ _ _ _) _ : Except String ContractFactSet) = _ at h
  cases hinsert : insertLeaves set.facts set.instances.length scope
      (predicates.map .contract) with
  | error e =>
      rw [hinsert] at h
      cases h
  | ok result =>
      rw [hinsert] at h
      obtain ⟨hlength, rfl⟩ := insertLeaves_ok hinsert hordered.facts_le
      cases h
      have hlengths : (predicates.map FactPredicate.contract).length =
          ((predicates.map FactPredicate.contract).map fun predicate ↦
            (scope, predicate)).length := (List.length_map _).symm
      rw [hlengths] at hlength ⊢
      refine hordered.append hlt hlength (fun p hp ↦ ?_) fun origin function clone heq ↦
        absurd heq (hsource origin function clone)
      obtain ⟨predicate, -, rfl⟩ := List.mem_map.mp hp
      exact hscope _

/-! ## Clones -/

/-- A record of a clone beside the one of its source: it says the same of the new values, and may
be used in the blocks of the clone. -/
structure RecordCloned (set set' : ContractFactSet) (function : FunctionId) (blocks : List BlockId)
    (valueMap : List (ValueId × ValueId)) (id : ContractInstanceId) (old new : FactId) : Prop where
  predicate : (set'.facts.get new).map (·.predicate) =
    (set.facts.get old).map (·.predicate.remap valueMap)
  defined : (set.facts.get old).isSome
  use : ∀ site, contractFactDominatesAt set' new site = true ↔
    function = site.function ∧ site.contractInstance = some id ∧ site.block ∈ blocks

/-- The set with the clone of an instance. -/
structure Cloned (set : ContractFactSet) (source : ContractInstanceId) (function : FunctionId)
    (clone : Nat) (blocks : List BlockId) (valueMap : List (ValueId × ValueId))
    (a a' : ContractFactInstance) (set' : ContractFactSet) : Prop where
  found : set.instance? source = some a
  instances : set'.instances = set.instances ++ [a']
  earlier : ∀ id < set.facts.facts.length, set'.facts.get id = set.facts.get id
  id : a'.id = set.instances.length
  callee : a'.callee = a.callee
  origin : a'.source = .inlineClone source function clone
  bindings : a'.bindings = a.bindings.map fun binding ↦
    ⟨binding.parameter, remapValue valueMap binding.value⟩
  records : List.Forall₂ (RecordCloned set set' function blocks valueMap a'.id) a.facts a'.facts

theorem RecordCloned.leaf {function : FunctionId} {clone generation : Nat} {blocks : List BlockId}
    {valueMap : List (ValueId × ValueId)} {id : ContractInstanceId} {old new : FactId} {fact : Fact}
    (hold : set.facts.get old = some fact)
    (hnew : set'.facts.get new = some ⟨new, .trustedContract id,
      .inlineClone function clone (sortedSet blocks), fact.predicate.remap valueMap,
        .trustedContractLeaf, generation⟩) :
    RecordCloned set set' function blocks valueMap id old new := by
  refine ⟨?_, ?_, fun site ↦ ?_⟩
  · rw [hold, hnew]
    rfl
  · rw [hold]
    rfl
  · unfold contractFactDominatesAt
    rw [hnew]
    dsimp only
    split
    · rename_i hother
      refine ⟨fun hfalse ↦ (Bool.false_ne_true hfalse).elim, fun hsite ↦ ?_⟩
      exact absurd hsite.2.1 hother.2
    · rw [FactScope.contains, Bool.and_eq_true, Bool.and_eq_true, decide_eq_true_eq,
        decide_eq_true_eq, List.contains_iff_mem, mem_sortedSet, and_assoc]

theorem filterMap_forall₂ {α β : Type} {f : α → Option β} {l : List α} {xs : List β}
    (h : List.Forall₂ (fun a x ↦ f a = some x) l xs) : l.filterMap f = xs := by
  induction h with
  | nil => rfl
  | cons hx _ ih => rw [List.filterMap_cons_some hx, ih]

/-- A clone that could be made is in order, and has the renamed records of its source. -/
theorem Ordered.clone (hordered : set.Ordered) {source : ContractInstanceId}
    {function : FunctionId} {clone : Nat} {blocks : List BlockId}
    {valueMap : List (ValueId × ValueId)} {id : ContractInstanceId}
    (h : cloneContractInstanceForInline set source function clone blocks valueMap =
      .ok (id, set')) :
    set'.Ordered ∧ ∃ a a', Cloned set source function clone blocks valueMap a a' set' := by
  unfold cloneContractInstanceForInline at h
  cases hsource : set.instance? source with
  | none =>
      rw [hsource] at h
      cases h
  | some a =>
      rw [hsource] at h
      dsimp only at h
      have ha := (hordered.instance?_eq source).symm.trans hsource
      have hmem := List.mem_of_getElem? ha
      have hlt := (List.getElem?_eq_some_iff.mp ha).1
      unfold nextContractInstanceId at h
      split at h
      case isFalse => cases h
      rename_i hroom
      change (Except.bind (insertLeaves _ _ _ _) _ : Except String _) = _ at h
      obtain ⟨facts, hfacts⟩ := exists_forall₂ (l := a.facts) fun old hold ↦
        (hordered.records a hmem old hold).imp fun fact hfact ↦ hfact.1
      rw [filterMap_forall₂ hfacts] at h
      cases hinsert : insertLeaves set.facts set.instances.length
          (.inlineClone function clone (sortedSet blocks))
          (facts.map (·.predicate.remap valueMap)) with
      | error e =>
          rw [hinsert] at h
          cases h
      | ok result =>
          rw [hinsert] at h
          obtain ⟨hlength, rfl⟩ := insertLeaves_ok hinsert hordered.facts_le
          cases h
          rw [List.length_map] at hlength ⊢
          rw [List.map_map]
          have hlengths : facts.length = (facts.map ((fun predicate ↦
              (FactScope.inlineClone function clone (sortedSet blocks), predicate)) ∘
                (·.predicate.remap valueMap))).length := (List.length_map _).symm
          refine ⟨?_, a, _, hsource, rfl, fun id hid ↦ FactArena.get_extend hid _, rfl, rfl, rfl, rfl,
            List.forall₂_iff_get.mpr ⟨?_, fun k hk hk' ↦ ?_⟩⟩
          · rw [hlengths] at hlength ⊢
            refine hordered.append hroom hlength (fun p hp ↦ ?_) fun origin f c heq ↦ ?_
            · obtain ⟨fact, -, rfl⟩ := List.mem_map.mp hp
              exact ⟨⟨_, rfl⟩, (sortedSet_pairwise blocks).imp le_of_lt⟩
            · obtain ⟨rfl, -⟩ := ContractInstanceSource.inlineClone.inj heq
              exact hlt
          · rw [List.length_range', hfacts.length_eq]
          · have hkfacts : k < facts.length := hfacts.length_eq ▸ hk
            have hold := (List.forall₂_iff_get.mp hfacts).2 k hk hkfacts
            have hnew := @FactArena.get_leaf set.instances.length set.facts (facts.map
              ((fun predicate ↦ (FactScope.inlineClone function clone (sortedSet blocks),
                predicate)) ∘ (·.predicate.remap valueMap))) k
            rw [List.getElem?_map, List.getElem?_eq_getElem hkfacts, Option.map_some,
              Option.map_some] at hnew
            dsimp only
            rw [List.get_eq_getElem, List.get_eq_getElem, List.getElem_range', Nat.one_mul]
            exact .leaf hold hnew

/-! ## Built sets -/

/-- The sets that imports, rebuilds and clones make. -/
inductive Built : ContractFactSet → Prop
  | empty (generation : Nat) : Built ⟨⟨generation, []⟩, []⟩
  | entry {set set' : ContractFactSet} (h : Built set) (callee : FunctionId)
      (bindings : List ContractFactBinding) (predicates : List ContractFactPredicate)
      (hset : set.appendContractInstance callee .functionEntry bindings predicates
        (.functionEntry callee) = .ok set') : Built set'
  | call {set set' : ContractFactSet} (h : Built set) (callee caller : FunctionId) (block : BlockId)
      (instruction : InstructionId) (bindings : List ContractFactBinding)
      (predicates : List ContractFactPredicate)
      (hset : set.appendContractInstance callee (.call caller block instruction) bindings predicates
        (.calleeInstance set.instances.length callee) = .ok set') : Built set'
  | retain {set set' : ContractFactSet} (h : Built set) (m : KirModule) (changed : Bool)
      (hset : set.retainCfgImports m = .ok (changed, set')) : Built set'
  | clone {set set' : ContractFactSet} (h : Built set) (source : ContractInstanceId)
      (function : FunctionId) (clone : Nat) (blocks : List BlockId)
      (valueMap : List (ValueId × ValueId)) (id : ContractInstanceId)
      (hset : cloneContractInstanceForInline set source function clone blocks valueMap =
        .ok (id, set')) : Built set'

theorem Built.ordered (h : set.Built) : set.Ordered := by
  induction h with
  | empty generation => exact .empty generation
  | entry h callee bindings predicates hset ih =>
      exact appendContractInstance_ok ih hset (fun _ ↦ ⟨rfl, rfl⟩) fun _ _ _ h ↦ nomatch h
  | call h callee caller block instruction bindings predicates hset ih =>
      exact appendContractInstance_ok ih hset (fun _ ↦ ⟨⟨_, _, _, rfl⟩, rfl, rfl⟩)
        fun _ _ _ h ↦ nomatch h
  | retain h m changed hset ih =>
      obtain ⟨needed, changed', rebuilt, hretain, hordered, -⟩ := ih.retainCfgImports_returns m
      rw [hretain] at hset
      cases hset
      exact hordered
  | clone h source function clone blocks valueMap id hset ih => exact (ih.clone hset).1

/-! ## Rebuilt records -/

/-- What the instance is for is in the module. -/
def InModule (m : KirModule) (a : ContractFactInstance) : Prop :=
  match a.source with
  | .functionEntry => m.hasFunction a.callee = true
  | .call caller block instruction => m.hasCall caller block instruction = true
  | .inlineClone _ _ _ => True

/-- A record of a rebuilt set beside the old one: it says the same, it is in the same scope less the
blocks that have gone, and it may be used in a block that is there where the old one could. -/
structure RecordRebuilt (set rebuilt : ContractFactSet) (m : KirModule)
    (needed : List ContractInstanceId) (live : Bool) (id : ContractInstanceId)
    (old new : FactId) : Prop where
  predicate : (rebuilt.facts.get new).map (·.predicate) = (set.facts.get old).map (·.predicate)
  scope : (rebuilt.facts.get new).map (·.scope) =
    (set.facts.get old).map (retainScope m live id ·.scope)
  defined : (set.facts.get old).isSome
  blocks : ∀ fact function clone blocks, rebuilt.facts.get new = some fact →
    fact.scope = .inlineClone function clone blocks → ∀ b ∈ blocks, m.hasBlock function b = live
  used_before : ∀ site, contractFactDominatesAt rebuilt new (rebuiltSite site needed) = true →
    contractFactDominatesAt set old site = true
  used_after : live = true → ∀ site, m.hasBlock site.function site.block = true →
    contractFactDominatesAt rebuilt new (rebuiltSite site needed) =
      contractFactDominatesAt set old site

/-- A rebuilt instance with its records. -/
structure Rebuilt (set rebuilt : ContractFactSet) (m : KirModule)
    (needed : List ContractInstanceId) (a a' : ContractFactInstance) : Prop where
  id : a'.id = needed.idxOf a.id
  callee : a'.callee = a.callee
  bindings : a'.bindings = a.bindings
  source : retainSource needed a.source = .ok a'.source
  inModule : set.isLive m a = true → InModule m a'
  records : List.Forall₂ (RecordRebuilt set rebuilt m needed (set.isLive m a) a'.id)
    a.facts a'.facts

theorem Ordered.mem_liveInstances (h : set.Ordered) {m : KirModule} {a : ContractFactInstance}
    (ha : a ∈ set.instances) : decide (a.id ∈ set.liveInstances m) = set.isLive m a := by
  rw [Bool.eq_iff_iff, decide_eq_true_eq]
  constructor
  · intro hid
    obtain ⟨b, hb, heq⟩ := List.mem_map.mp hid
    obtain ⟨hb, hlive⟩ := List.mem_filter.mp hb
    have hsame := (h.instance?_of_mem hb).symm.trans (heq ▸ h.instance?_of_mem ha)
    exact Option.some.inj hsame ▸ hlive
  · exact fun hlive ↦ List.mem_map_of_mem (List.mem_filter.mpr ⟨ha, hlive⟩)

theorem inModule_of_live {m : KirModule} {needed : List ContractInstanceId}
    {a a' : ContractFactInstance} (hcallee : a'.callee = a.callee)
    (hsource : retainSource needed a.source = .ok a'.source) (hlive : set.isLive m a = true) :
    InModule m a' := by
  unfold isLive at hlive
  unfold InModule
  split at hlive
  · rename_i heq
    rw [heq] at hsource
    rw [← Except.ok.inj hsource, hcallee]
    exact hlive
  · rename_i heq
    rw [heq] at hsource
    rw [← Except.ok.inj hsource]
    exact hlive
  · rename_i heq
    rw [heq, retainSource] at hsource
    split at hsource
    · rw [← Except.ok.inj hsource]
      trivial
    · cases hsource

/-- The blocks of a clone that is not live have gone. -/
theorem hasBlock_of_not_live {m : KirModule} {a : ContractFactInstance}
    (hlive : set.isLive m a = false) {old : FactId} (hold : old ∈ a.facts) {fact : Fact}
    (hfact : set.facts.get old = some fact) (hscopes : a.Scopes fact.scope) {function : FunctionId}
    {clone : Nat} {blocks : List BlockId} (hscope : fact.scope = .inlineClone function clone blocks)
    {b : BlockId} (hb : b ∈ blocks) : m.hasBlock function b = false := by
  rw [hscope] at hscopes
  obtain ⟨⟨source, hsource⟩, -⟩ := hscopes
  rw [isLive, hsource] at hlive
  have hnone := List.any_eq_false.mp hlive fact (List.mem_filterMap.mpr ⟨old, hold, hfact⟩)
  rw [hscope] at hnone
  exact Bool.eq_false_iff.mpr (List.any_eq_false.mp (Bool.eq_false_iff.mpr hnone) b hb)

theorem Kept.rebuilt {rebuilt : ContractFactSet} {m : KirModule}
    {needed : List ContractInstanceId} {a a' : ContractFactInstance} (hordered : set.Ordered)
    (ha : a ∈ set.instances) (hid : a.id ∈ needed) (h : Kept set m needed rebuilt a a') :
    Rebuilt set rebuilt m needed a a' := by
  refine ⟨h.id, h.callee, h.bindings, h.source, inModule_of_live h.callee h.source, ?_⟩
  have hlive : decide (a.id ∈ set.liveInstances m) = set.isLive m a :=
    hordered.mem_liveInstances ha
  obtain ⟨hlength, hfacts⟩ := List.forall₂_iff_get.mp h.facts
  refine List.forall₂_iff_get.mpr ⟨hlength, fun k hk hk' ↦ ?_⟩
  obtain ⟨fact, fact', hold, hnew, horigin', hpredicate, hscope⟩ := hfacts k hk hk'
  obtain ⟨fact₀, hold₀, horigin, -, hscopes⟩ := hordered.records a ha _ (List.get_mem a.facts ⟨k, hk⟩)
  obtain rfl := Option.some.inj (hold₀.symm.trans hold)
  have huse := fun site ↦ h.dominates hid hold horigin hnew horigin' hscope hscopes site
  rw [hlive] at hscope huse
  refine ⟨?_, ?_, ?_, ?_, fun site hsite ↦ ?_, fun hlive' site hblock ↦ ?_⟩
  · rw [hold, hnew]
    exact congrArg some hpredicate
  · rw [hold, hnew]
    exact congrArg some hscope
  · rw [hold]
    rfl
  · intro fact function clone blocks hget hclone b hb
    obtain rfl := Option.some.inj (hnew.symm.trans hget)
    rw [hclone] at hscope
    cases holdScope : fact₀.scope with
    | inlineClone f c bs =>
        rw [holdScope, retainScope] at hscope
        cases hisLive : set.isLive m a with
        | true =>
            rw [hisLive, if_pos rfl] at hscope
            obtain ⟨rfl, rfl, rfl⟩ := FactScope.inlineClone.inj hscope
            exact (List.mem_filter.mp hb).2
        | false =>
            rw [hisLive, if_neg Bool.false_ne_true] at hscope
            obtain ⟨rfl, rfl, rfl⟩ := FactScope.inlineClone.inj hscope
            exact hasBlock_of_not_live hisLive (List.get_mem a.facts ⟨k, hk⟩) hold hscopes
              holdScope hb
    | _ =>
        rw [holdScope] at hscope
        cases hscope
  · rw [huse, Bool.and_eq_true] at hsite
    exact hsite.1
  · have hleft : fact₀.scope.blockLeft m true site = true := by
      cases fact₀.scope with
      | inlineClone f c bs => exact hblock
      | _ => rfl
    rw [huse, hlive', hleft, Bool.and_true]

/-- What the rewrites leave of a contract set, however it was built. -/
theorem contractRecords_attached (h : set.Built) (m : KirModule) (meaning : ContractMeaning) :
    (∃ needed changed rebuilt, set.retainCfgImports m = .ok (changed, rebuilt) ∧ rebuilt.Built ∧
      (∀ a ∈ set.instances, a.id ∈ needed ↔ Needed set m a) ∧
        List.Forall₂ (Rebuilt set rebuilt m needed) (set.instances.filter (·.id ∈ needed))
          rebuilt.instances) ∧
    (∀ source function clone blocks valueMap id set',
      cloneContractInstanceForInline set source function clone blocks valueMap = .ok (id, set') →
        set'.Built ∧ ∃ a a', Cloned set source function clone blocks valueMap a a' set') ∧
    (∀ (valueMap : List (ValueId × ValueId)) (predicate : FactPredicate) (env : Env),
      (predicate.remap valueMap).Holds meaning env ↔
        predicate.Holds meaning (env.renamed valueMap)) ∧
    (∀ t name args memory s, m.start name args memory = some s →
      ∃ s', (m.pruned (protectedContractValues (some set))).start name args memory = some s' ∧
        ∀ n, set.MoveSame meaning ((kirMachine t m).run n s)
          ((kirMachine t (m.pruned (protectedContractValues (some set)))).run n s')) ∧
    ∀ f ∈ m.functions, (f.pruned (protectedContractValues (some set))).blockIds = f.blockIds ∧
      (f.pruned (protectedContractValues (some set))).regions = f.regions ∧
        ∀ v ∈ protectedContractValues (some set), v ∈ f.valueIds →
          v ∈ (f.pruned (protectedContractValues (some set))).valueIds := by
  refine ⟨?_, fun source function clone blocks valueMap id set' hset ↦ ?_,
    fun valueMap predicate env ↦ predicate.holds_remap valueMap env meaning,
    fun t name args memory s hstart ↦ pruned_run hstart, fun f _ ↦ ⟨KirFunction.pruned_blockIds,
      ?_, fun v hv hdefined ↦ KirFunction.mem_valueIds_pruned hdefined
        (KirFunction.liveIn_protected hv)⟩⟩
  · obtain ⟨needed, changed, rebuilt, hretain, -, hneeded, hkept⟩ :=
      h.ordered.retainCfgImports_returns m
    refine ⟨needed, changed, rebuilt, hretain, h.retain m changed hretain, hneeded, ?_⟩
    obtain ⟨hlength, hkept⟩ := List.forall₂_iff_get.mp hkept
    refine List.forall₂_iff_get.mpr ⟨hlength, fun k hk hk' ↦ ?_⟩
    obtain ⟨hmem, hid⟩ := List.mem_filter.mp (List.get_mem (set.instances.filter _) ⟨k, hk⟩)
    exact (hkept k hk hk').rebuilt h.ordered hmem (of_decide_eq_true hid)
  · exact ⟨h.clone source function clone blocks valueMap id hset, (h.ordered.clone hset).2⟩
  · rw [KirFunction.pruned_eq]

/-! ## An inlined call -/

/-- `caller` after the call of `callee` in its first block was inlined as the second one. -/
def inlinedCaller : KirFunction :=
  ⟨1, "caller", true, [⟨1, "n", .primitive .i32⟩], .void, [], [], [],
    [⟨1, "bb1", [], [], [], .jump ⟨2, [], []⟩⟩, ⟨2, "bb2", [], [], [], .jump ⟨3, [], []⟩⟩,
      ⟨3, "bb3", [], [], [], .return none [] 0⟩]⟩

def inlinedModule : KirModule :=
  ⟨⟨.c, .unchecked, .unchecked, .disabled⟩, none, [], [⟨0, "callee", false, [⟨0, "x", .primitive .i32⟩], .void, [], [], [],
    [⟨0, "bb0", [], [], [], .return none [] 0⟩]⟩, inlinedCaller]⟩

def inlinedPredicate : ContractFactPredicate :=
  .comparison ">=" ⟨[⟨.value 1, 1⟩], 0⟩ ⟨[], 0⟩

/-- The record of the call. -/
def callSet : ContractFactSet :=
  ⟨⟨0, [⟨0, .trustedContract 0, .calleeInstance 0 0, .contract inlinedPredicate,
    .trustedContractLeaf, 0⟩]⟩, [⟨0, 0, .call 1 1 0, [⟨"x", 1⟩], [0]⟩]⟩

/-- The record of the call with the one of its clone. -/
def inlinedSet : ContractFactSet :=
  ⟨⟨0, callSet.facts.facts ++ [⟨1, .trustedContract 1, .inlineClone 1 0 [2],
    .contract inlinedPredicate, .trustedContractLeaf, 0⟩]⟩,
    callSet.instances ++ [⟨1, 0, .inlineClone 0 1 0, [⟨"x", 1⟩], [1]⟩]⟩

theorem callSet_built : callSet.Built := .call (.empty 0) 0 1 1 0 [⟨"x", 1⟩] [inlinedPredicate] rfl

theorem inlinedSet_built : inlinedSet.Built := callSet_built.clone 0 1 0 [2] [] 1 rfl

theorem inlinedSet_attached : ∃ needed changed rebuilt,
    inlinedSet.retainCfgImports inlinedModule = .ok (changed, rebuilt) ∧ rebuilt.Built ∧
      (∀ a ∈ inlinedSet.instances, a.id ∈ needed ↔ Needed inlinedSet inlinedModule a) ∧
        List.Forall₂ (Rebuilt inlinedSet rebuilt inlinedModule needed)
          (inlinedSet.instances.filter (·.id ∈ needed)) rebuilt.instances :=
  (contractRecords_attached inlinedSet_built inlinedModule
    ⟨fun _ _ ↦ True, fun _ _ ↦ True⟩).1

/-- The record of the call stays, whose call has gone; the clone is in its block only, which
dominates another one. -/
theorem inlinedSet_retained :
    inlinedSet.Built ∧ inlinedSet.retainCfgImports inlinedModule = .ok (false, inlinedSet) ∧
      (∃ a ∈ inlinedSet.instances, a.source = .call 1 1 0) ∧
      inlinedModule.hasCall 1 1 0 = false ∧
      (∃ fact ∈ inlinedSet.facts.facts, fact.scope = .inlineClone 1 0 [2]) ∧
      inlinedCaller.computeKirDominators 2 3 = true :=
  ⟨inlinedSet_built, by decide +kernel, by decide +kernel⟩

end ContractFactSet

end CalcKernel
