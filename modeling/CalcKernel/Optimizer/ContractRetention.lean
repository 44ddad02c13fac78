import CalcKernel.Optimizer.ContractScopes
import Mathlib.Data.List.Flatten

/-!
# Rebuilt contract sets

What is left of a contract set when blocks have gone: the live instances and what they
were cloned from, with the same facts in the scopes that are left.
-/

namespace CalcKernel

open Lib Relation

/-- The block of a site is left, where blocks are taken away from the scope. -/
def FactScope.blockLeft (m : KirModule) (live : Bool) (site : FactUseSite) :
    FactScope → Bool
  | .inlineClone _ _ _ => !live || m.hasBlock site.function site.block
  | .functionEntry _ | .block _ _ | .calleeInstance _ _ => true

namespace ContractFactSet

variable {set : ContractFactSet} {m : KirModule} {a : ContractFactInstance}
  {needed : List ContractInstanceId}

/-- An instance that is live, or that a needed instance was cloned from. -/
inductive Needed (set : ContractFactSet) (m : KirModule) : ContractFactInstance → Prop
  | live {a : ContractFactInstance} (ha : a ∈ set.instances) (h : set.isLive m a = true) :
      Needed set m a
  | source {a b : ContractFactInstance} (hb : Needed set m b) (h : a.id ∈ b.ancestors)
      (ha : a ∈ set.instances) : Needed set m a

/-- An instance of the rebuilt set beside the one it comes from. -/
structure Kept (set : ContractFactSet) (m : KirModule) (needed : List ContractInstanceId)
    (rebuilt : ContractFactSet) (a a' : ContractFactInstance) : Prop where
  id : a'.id = needed.idxOf a.id
  callee : a'.callee = a.callee
  bindings : a'.bindings = a.bindings
  source : retainSource needed a.source = .ok a'.source
  facts : List.Forall₂ (fun old new ↦ ∃ fact fact', set.facts.get old = some fact ∧
    rebuilt.facts.get new = some fact' ∧ fact'.origin = .trustedContract a'.id ∧
      fact'.predicate = fact.predicate ∧
        fact'.scope = retainScope m (a.id ∈ set.liveInstances m) a'.id fact.scope) a.facts a'.facts

/-- A kept instance stays so while facts are added behind. -/
theorem Kept.extend {rebuilt : ContractFactSet} {a a' : ContractFactInstance}
    (h : Kept set m needed rebuilt a a') (instance_ : ContractInstanceId)
    (ps : List (FactScope × FactPredicate)) (instances : List ContractFactInstance) :
    Kept set m needed ⟨rebuilt.facts.extend instance_ ps, instances⟩ a a' := by
  refine { h with facts := h.facts.imp fun old new ⟨fact, fact', hold, hnew, hrest⟩ ↦ ?_ }
  refine ⟨fact, fact', hold, (FactArena.get_extend ?_ ps).trans hnew, hrest⟩
  exact (List.getElem?_eq_some_iff.mp hnew).1

namespace Ordered

/-- The needed identities: sorted, and those of the needed instances. -/
theorem neededInstances_returns (h : set.Ordered) (m : KirModule) :
    ∃ needed, set.neededInstances m = some needed ∧ needed.Pairwise (· < ·) ∧
      (∀ id ∈ needed, ∃ a ∈ set.instances, a.id = id ∧ Needed set m a) ∧
        ∀ a, Needed set m a → a.id ∈ needed := by
  have hlive : ∀ id ∈ set.liveInstances m, ∃ a ∈ set.instances, a.id = id ∧ Needed set m a := by
    intro id hid
    obtain ⟨a, ha, rfl⟩ := List.mem_map.mp hid
    obtain ⟨ha, hisLive⟩ := List.mem_filter.mp ha
    exact ⟨a, ha, rfl, .live ha hisLive⟩
  have hnext : ∀ id, (∃ a ∈ set.instances, a.id = id ∧ Needed set m a) →
      ∃ new, (set.instance? id).map (·.ancestors) = some new ∧
        ∀ source ∈ new, ∃ a ∈ set.instances, a.id = source ∧ Needed set m a := by
    rintro id ⟨a, ha, rfl, hneeded⟩
    refine ⟨a.ancestors, by rw [h.instance?_of_mem ha]; rfl, fun source hsource ↦ ?_⟩
    have hlt := h.sources a ha source hsource
    obtain ⟨k, hk⟩ := List.getElem?_of_mem ha
    have hklt := (List.getElem?_eq_some_iff.mp hk).1
    rw [h.getElem?_id hk] at hlt
    obtain ⟨b, hb⟩ : ∃ b, set.instances[source]? = some b :=
      ⟨_, List.getElem?_eq_getElem (lt_trans hlt hklt)⟩
    have hid := h.getElem?_id hb
    exact ⟨b, List.mem_of_getElem? hb, hid,
      .source hneeded (hid ▸ hsource) (List.mem_of_getElem? hb)⟩
  have hone : ∀ a : ContractFactInstance, a.ancestors.length ≤ 1 := by
    intro a
    unfold ContractFactInstance.ancestors
    split
    · exact le_rfl
    · exact Nat.zero_le _
    · exact Nat.zero_le _
  obtain ⟨visited, hvisited⟩ := @search_succeeds ContractInstanceId _
    (fun id ↦ (set.instance? id).map (·.ancestors)) (set.liveInstances m)
    ((set.liveInstances m).length + set.instances.length)
    (fun id ↦ ∃ a ∈ set.instances, a.id = id ∧ Needed set m a) hlive hnext
    (fun id ↦ if id ∈ set.instances.map (·.id) then 1 else 0) (set.instances.map (·.id))
    (fun id new hnew ↦ by
      obtain ⟨a, ha, rfl⟩ := Option.map_eq_some_iff.mp hnew
      rw [h.instance?_eq] at ha
      have hmem := List.mem_map_of_mem (f := (·.id)) (List.mem_of_getElem? ha)
      rw [h.getElem?_id ha] at hmem
      rw [if_pos hmem]
      exact hone a) (fun id hid ↦ if_neg hid) (by
      refine Nat.add_le_add_left ?_ _
      rw [List.map_map]
      refine (List.sum_le_card_nsmul _ 1 ?_).trans (by simp)
      intro n hn
      obtain ⟨a, -, rfl⟩ := List.mem_map.mp hn
      dsimp only [Function.comp_apply]
      split <;> omega)
  obtain ⟨hstart, hclosed⟩ := search_closed hvisited
  refine ⟨sortedSet visited, by rw [neededInstances, hvisited]; rfl, sortedSet_pairwise _, ?_, ?_⟩
  · intro id hid
    rw [mem_sortedSet, mem_search hvisited] at hid
    obtain ⟨r, hr, hpath⟩ := hid
    induction hpath with
    | refl => exact hlive _ hr
    | tail _ hstep ih =>
        obtain ⟨new, hnew, hmem⟩ := hstep
        obtain ⟨new', hnew', hall⟩ := hnext _ ih
        obtain rfl := Option.some.inj (hnew.symm.trans hnew')
        exact hall _ hmem
  · intro a ha
    rw [mem_sortedSet]
    induction ha with
    | live ha hisLive =>
        exact hstart _ (List.mem_map_of_mem (List.mem_filter.mpr ⟨ha, hisLive⟩))
    | @source a b hb hsource ha ih =>
        obtain ⟨new, hnew, hall⟩ := hclosed _ ih
        have hmem : b ∈ set.instances := by
          cases hb with
          | live hb _ => exact hb
          | source _ _ hb => exact hb
        rw [h.instance?_of_mem hmem] at hnew
        cases hnew
        exact hall _ hsource

/-- The instances that are kept have the needed identities, in order. -/
theorem map_id_filter (h : set.Ordered) (hsorted : needed.Pairwise (· < ·))
    (hmem : ∀ id ∈ needed, ∃ a ∈ set.instances, a.id = id) :
    (set.instances.filter (·.id ∈ needed)).map (·.id) = needed := by
  have hpairwise : ((set.instances.filter (·.id ∈ needed)).map (·.id)).Pairwise (· < ·) := by
    have hrange : (set.instances.map (·.id)).Pairwise (· < ·) := h.ids ▸ List.pairwise_lt_range
    exact hrange.sublist (List.filter_sublist.map _)
  have hperm : ((set.instances.filter (·.id ∈ needed)).map (·.id)).Perm needed := by
    refine (List.perm_ext_iff_of_nodup (hpairwise.imp fun h ↦ h.ne)
      (hsorted.imp fun h ↦ h.ne)).mpr fun id ↦ ?_
    simp only [List.mem_map, List.mem_filter, decide_eq_true_eq]
    constructor
    · rintro ⟨a, ⟨-, hid⟩, rfl⟩
      exact hid
    · intro hid
      obtain ⟨a, ha, rfl⟩ := hmem id hid
      exact ⟨a, ⟨ha, hid⟩, rfl⟩
  exact hperm.eq_of_pairwise (fun a b _ _ hab hba ↦ absurd hab (lt_asymm hba)) hpairwise hsorted

theorem idxOf_lt (hsorted : needed.Pairwise (· < ·)) {i j : Nat} (hi : i ∈ needed) (hij : i < j)
    (hj : j ∈ needed) : needed.idxOf i < needed.idxOf j := by
  have hpair := List.pairwise_iff_getElem.mp hsorted
  have hilt := List.idxOf_lt_length_of_mem hi
  have hjlt := List.idxOf_lt_length_of_mem hj
  by_contra hnot
  rcases Nat.lt_or_eq_of_le (not_lt.mp hnot) with hlt | heq
  · have hji := hpair _ _ hjlt hilt hlt
    rw [List.getElem_idxOf hjlt, List.getElem_idxOf hilt] at hji
    exact lt_asymm hij hji
  · have hsame : needed[needed.idxOf i]? = needed[needed.idxOf j]? := by rw [heq]
    rw [List.getElem?_idxOf hi, List.getElem?_idxOf hj] at hsame
    exact hij.ne (Option.some.inj hsame)

/-- What a retained instance becomes. -/
theorem retainInstance_eq (h : set.Ordered) (m : KirModule) (ha : a ∈ set.instances)
    {source : ContractInstanceSource} (hsource : retainSource needed a.source = .ok source)
    (rebuilt : ContractFactSet)
    (hlength : rebuilt.facts.facts.length + a.facts.length ≤ arenaIdentities) :
    ∃ ps : List (FactScope × FactPredicate),
      set.retainInstance m needed rebuilt a =
        .ok ⟨rebuilt.facts.extend (needed.idxOf a.id) ps, rebuilt.instances ++
          [⟨needed.idxOf a.id, a.callee, source, a.bindings,
            List.range' rebuilt.facts.facts.length ps.length⟩]⟩ ∧
      List.Forall₂ (fun old p ↦ ∃ fact, set.facts.get old = some fact ∧ a.Scopes fact.scope ∧
        p = (retainScope m (a.id ∈ set.liveInstances m) (needed.idxOf a.id) fact.scope,
          fact.predicate)) a.facts ps := by
  obtain ⟨ps, hps⟩ := exists_forall₂ (l := a.facts) (R := fun old p ↦ ∃ fact,
    set.facts.get old = some fact ∧ (fact.origin = .trustedContract a.id ∧
      fact.derivation = .trustedContractLeaf ∧ a.Scopes fact.scope) ∧
      p = (retainScope m (a.id ∈ set.liveInstances m) (needed.idxOf a.id) fact.scope,
        fact.predicate)) fun old hold ↦ by
    obtain ⟨fact, hfact, hleaf⟩ := h.records a ha old hold
    exact ⟨_, fact, hfact, hleaf, rfl⟩
  have hinsert : a.facts.foldlM (set.retainFact m (a.id ∈ set.liveInstances m) a
      (needed.idxOf a.id)) ([], rebuilt.facts) =
        .ok (List.range' rebuilt.facts.facts.length ps.length,
          rebuilt.facts.extend (needed.idxOf a.id) ps) := by
    refine foldlM_tryInsert (hps.imp fun old p hp ids arena ↦ ?_) [] rebuilt.facts
      (by rwa [← hps.length_eq])
    obtain ⟨fact, hfact, ⟨horigin, hderivation, -⟩, rfl⟩ := hp
    rw [retainFact, hfact]
    exact if_neg (by rw [horigin, hderivation]; simp)
  refine ⟨ps, ?_, hps.imp fun old p ⟨fact, hfact, hleaf, hp⟩ ↦ ⟨fact, hfact, hleaf.2.2, hp⟩⟩
  unfold retainInstance
  rw [hsource]
  change (Except.bind (a.facts.foldlM _ _) _ : Except String ContractFactSet) = _
  rw [hinsert]
  rfl

theorem retainSource_returns (hsources : ∀ source ∈ a.ancestors, source ∈ needed) :
    ∃ source, retainSource needed a.source = .ok source := by
  unfold ContractFactInstance.ancestors at hsources
  unfold retainSource
  split at hsources
  · rename_i source function clone heq
    rw [heq]
    exact ⟨_, if_pos (hsources source (List.mem_singleton_self _))⟩
  · rename_i heq
    exact ⟨.functionEntry, by rw [heq]⟩
  · rename_i caller block instruction heq
    exact ⟨.call caller block instruction, by rw [heq]⟩

/-- The facts of a retained instance are in its scope. -/
theorem scopes_retained {source : ContractInstanceSource}
    (hsource : retainSource needed a.source = .ok source) {scope : FactScope}
    (hscope : a.Scopes scope) (m : KirModule) (live : Bool) (id : ContractInstanceId)
    (facts : List FactId) :
    ContractFactInstance.Scopes ⟨id, a.callee, source, a.bindings, facts⟩
      (retainScope m live id scope) := by
  cases scope with
  | functionEntry function =>
      obtain ⟨heq, hcallee⟩ := hscope
      rw [heq] at hsource
      cases hsource
      exact ⟨rfl, hcallee⟩
  | block function block => exact hscope
  | calleeInstance i callee =>
      obtain ⟨⟨caller, block, instruction, heq⟩, -, hcallee⟩ := hscope
      rw [heq] at hsource
      cases hsource
      exact ⟨⟨caller, block, instruction, rfl⟩, rfl, hcallee⟩
  | inlineClone function clone blocks =>
      obtain ⟨⟨origin, heq⟩, hsorted⟩ := hscope
      rw [heq, retainSource] at hsource
      split at hsource
      · cases hsource
        cases live with
        | true => exact ⟨⟨_, rfl⟩, hsorted.filter _⟩
        | false => exact ⟨⟨_, rfl⟩, hsorted⟩
      · cases hsource

/-- Instances retained one after another. -/
theorem foldlM_retainInstance (h : set.Ordered) (m : KirModule)
    (hsorted : needed.Pairwise (· < ·)) (hmem : ∀ id ∈ needed, ∃ a ∈ set.instances, a.id = id)
    (hsources : ∀ a ∈ set.instances, a.id ∈ needed → ∀ source ∈ a.ancestors, source ∈ needed)
    {done rest : List ContractFactInstance}
    (hlist : set.instances.filter (·.id ∈ needed) = done ++ rest) {rebuilt : ContractFactSet}
    (hordered : rebuilt.Ordered) (hcount : rebuilt.instances.length = done.length)
    (hfacts : rebuilt.facts.facts.length = (done.flatMap (·.facts)).length)
    (hkept : List.Forall₂ (Kept set m needed rebuilt) done rebuilt.instances) :
    ∃ rebuilt', rest.foldlM (set.retainInstance m needed) rebuilt = .ok rebuilt' ∧
      rebuilt'.Ordered ∧ List.Forall₂ (Kept set m needed rebuilt')
        (set.instances.filter (·.id ∈ needed)) rebuilt'.instances := by
  induction rest generalizing done rebuilt with
  | nil =>
      rw [List.append_nil] at hlist
      exact ⟨rebuilt, rfl, hordered, hlist ▸ hkept⟩
  | cons a rest ih =>
      have hafter : a ∈ set.instances.filter (·.id ∈ needed) :=
        hlist ▸ List.mem_append_right _ List.mem_cons_self
      obtain ⟨ha, hid⟩ := List.mem_filter.mp hafter
      have hid : a.id ∈ needed := by simpa using hid
      have hindex : needed.idxOf a.id = rebuilt.instances.length := by
        have hids := h.map_id_filter hsorted hmem
        rw [hlist, List.map_append, List.map_cons] at hids
        have hget : needed[done.length]? = some a.id := by
          rw [← hids, List.getElem?_append_right (by rw [List.length_map]), List.length_map,
            Nat.sub_self]
          rfl
        obtain ⟨hlt, hget⟩ := List.getElem?_eq_some_iff.mp hget
        have hnodup : needed.Nodup := hsorted.imp fun h ↦ h.ne
        rw [← hget, hnodup.idxOf_getElem done.length hlt, hcount]
      obtain ⟨source, hsource⟩ := retainSource_returns (hsources a ha hid)
      have htotal : rebuilt.facts.facts.length + a.facts.length ≤ arenaIdentities := by
        have hle : ((done ++ a :: rest).flatMap (·.facts)).length ≤ set.facts.facts.length := by
          rw [← hlist]
          refine (List.filter_sublist.flatMap _).length_le.trans ?_
          rw [h.facts, List.length_range]
        have hmax := h.facts_le
        rw [List.flatMap_append, List.flatMap_cons, List.length_append, List.length_append] at hle
        omega
      obtain ⟨ps, hretain, hps⟩ := h.retainInstance_eq m ha hsource rebuilt htotal
      rw [hindex] at hretain hps
      have hlength := hps.length_eq
      have hkept' : Kept set m needed ⟨rebuilt.facts.extend rebuilt.instances.length ps,
          rebuilt.instances ++ [⟨rebuilt.instances.length, a.callee, source, a.bindings,
            List.range' rebuilt.facts.facts.length ps.length⟩]⟩ a
          ⟨rebuilt.instances.length, a.callee, source, a.bindings,
            List.range' rebuilt.facts.facts.length ps.length⟩ := by
        refine ⟨hindex.symm, rfl, rfl, hsource, List.forall₂_iff_get.mpr ⟨?_, fun k hk hk' ↦ ?_⟩⟩
        · rw [List.length_range', hlength]
        · have hkps : k < ps.length := hlength ▸ hk
          obtain ⟨fact, hold, -, hp⟩ := (List.forall₂_iff_get.mp hps).2 k hk hkps
          have hleaf := @FactArena.get_leaf rebuilt.instances.length rebuilt.facts ps k
          rw [List.getElem?_eq_getElem hkps, Option.map_some] at hleaf
          refine ⟨fact, ⟨rebuilt.facts.facts.length + k, .trustedContract rebuilt.instances.length,
            ps[k].1, ps[k].2, .trustedContractLeaf, rebuilt.facts.generation⟩, hold, ?_, rfl,
            congrArg Prod.snd hp, congrArg Prod.fst hp⟩
          rw [List.get_eq_getElem, List.getElem_range', Nat.one_mul]
          exact hleaf
      have hids : rebuilt.instances.length < arenaIdentities := by
        have hle := (List.filter_sublist (p := fun a ↦ decide (a.id ∈ needed))
          (l := set.instances)).length_le
        have hmax := h.instances_le
        rw [hlist, List.length_append, List.length_cons] at hle
        omega
      have hscopes : ∀ p ∈ ps, ContractFactInstance.Scopes ⟨rebuilt.instances.length, a.callee,
          source, a.bindings, List.range' rebuilt.facts.facts.length ps.length⟩ p.1 := by
        intro p hp
        obtain ⟨k, hk, rfl⟩ := List.getElem_of_mem hp
        obtain ⟨fact, -, hscope, heq⟩ := (List.forall₂_iff_get.mp hps).2 k (hlength ▸ hk) hk
        rw [List.get_eq_getElem] at heq
        rw [heq]
        exact scopes_retained hsource hscope m _ _ _
      have horigins : ∀ origin function clone, source = .inlineClone origin function clone →
          origin < rebuilt.instances.length := by
        intro origin function clone hclone
        unfold retainSource at hsource
        split at hsource
        · rename_i source function clone heq
          split at hsource
          · rename_i hneeded
            obtain rfl := (ContractInstanceSource.inlineClone.inj
              ((Except.ok.inj hsource).trans hclone)).1
            have hancestor : source ∈ a.ancestors := by
              rw [ContractFactInstance.ancestors, heq]
              exact List.mem_singleton_self _
            rw [← hindex]
            exact idxOf_lt hsorted hneeded (h.sources a ha source hancestor) hid
          · cases hsource
        · rename_i hnot
          exact absurd ((Except.ok.inj hsource).trans hclone) (hnot _ _ _)
      have hlist' : set.instances.filter (·.id ∈ needed) = (done ++ [a]) ++ rest := by
        rw [hlist, List.append_assoc]
        rfl
      obtain ⟨rebuilt', hfold, hrest⟩ := ih hlist'
        (hordered.append hids (hlength ▸ htotal) hscopes horigins)
        (by rw [List.length_append, List.length_append, hcount]; rfl)
        (by rw [FactArena.length_extend, List.flatMap_append, List.length_append, hfacts,
          List.flatMap_singleton, hlength])
        (List.rel_append (hkept.imp fun _ _ h ↦ h.extend _ _ _) (.cons hkept' .nil))
      refine ⟨rebuilt', ?_, hrest⟩
      rw [List.foldlM_cons, hretain]
      exact hfold

/-- A set in order is rebuilt: what is needed is kept, in order again. -/
theorem retainCfgImports_returns (h : set.Ordered) (m : KirModule) :
    ∃ needed changed rebuilt, set.retainCfgImports m = .ok (changed, rebuilt) ∧ rebuilt.Ordered ∧
      (∀ a ∈ set.instances, a.id ∈ needed ↔ Needed set m a) ∧
        List.Forall₂ (Kept set m needed rebuilt) (set.instances.filter (·.id ∈ needed))
          rebuilt.instances := by
  obtain ⟨needed, hneeded, hsorted, hfound, hall⟩ := h.neededInstances_returns m
  have hmem : ∀ id ∈ needed, ∃ a ∈ set.instances, a.id = id := fun id hid ↦
    (hfound id hid).imp fun a ha ↦ ⟨ha.1, ha.2.1⟩
  have hiff : ∀ a ∈ set.instances, a.id ∈ needed ↔ Needed set m a := by
    refine fun a ha ↦ ⟨fun hid ↦ ?_, hall a⟩
    obtain ⟨b, hb, heq, hneeded⟩ := hfound a.id hid
    have hsame := (h.instance?_of_mem hb).symm.trans (heq ▸ h.instance?_of_mem ha)
    exact Option.some.inj hsame ▸ hneeded
  have hsources : ∀ a ∈ set.instances, a.id ∈ needed → ∀ source ∈ a.ancestors,
      source ∈ needed := by
    intro a ha hid source hsource
    obtain ⟨k, hk⟩ := List.getElem?_of_mem ha
    have hlt := h.sources a ha source hsource
    rw [h.getElem?_id hk] at hlt
    have hklt := (List.getElem?_eq_some_iff.mp hk).1
    obtain ⟨b, hb⟩ : ∃ b, set.instances[source]? = some b :=
      ⟨_, List.getElem?_eq_getElem (lt_trans hlt hklt)⟩
    have hbid := h.getElem?_id hb
    rw [← hbid]
    exact hall _ (.source ((hiff a ha).mp hid) (hbid ▸ hsource) (List.mem_of_getElem? hb))
  have hlength : needed.length ≤ arenaIdentities := by
    rw [← h.map_id_filter hsorted hmem, List.length_map]
    exact (List.filter_sublist.length_le).trans h.instances_le
  have hlist : set.instances.filter (·.id ∈ needed) =
      [] ++ set.instances.filter (·.id ∈ needed) := rfl
  obtain ⟨rebuilt, hfold, hordered, hkept⟩ := h.foldlM_retainInstance m hsorted hmem hsources
    hlist (Ordered.empty set.facts.generation) rfl rfl .nil
  refine ⟨needed, decide (set ≠ rebuilt), rebuilt, ?_, hordered, hiff, hkept⟩
  unfold retainCfgImports
  rw [hneeded]
  dsimp only
  rw [if_neg (not_lt.mpr hlength)]
  change (Except.bind (List.foldlM _ _ _) _ : Except String (Bool × ContractFactSet)) = _
  rw [hfold]
  rfl

end Ordered

/-! ## Use after a rebuild -/

/-- The site with the instance it belongs to after a rebuild. -/
def rebuiltSite (site : FactUseSite)
    (needed : List ContractInstanceId) : FactUseSite :=
  { site with contractInstance := site.contractInstance.map needed.idxOf }

theorem contains_retained {scope : FactScope} (hscope : a.Scopes scope)
    {id : ContractInstanceId} {site : FactUseSite}
    (hsame : site.contractInstance.map needed.idxOf = some id ↔ site.contractInstance = some a.id)
    (live : Bool) :
    (retainScope m live id scope).contains id (rebuiltSite site needed) =
      (scope.contains a.id site && scope.blockLeft m live site) := by
  have hsame' : (rebuiltSite site needed).contractInstance = some id ↔
      site.contractInstance = some a.id := hsame
  have hfunction : (rebuiltSite site needed).function = site.function := rfl
  have hblock : (rebuiltSite site needed).block = site.block := rfl
  rw [Bool.eq_iff_iff]
  cases scope with
  | functionEntry function =>
      simp only [retainScope, FactScope.contains, FactScope.blockLeft, decide_eq_true_eq, hfunction, Bool.and_true]
  | block function block =>
      simp only [retainScope, FactScope.contains, FactScope.blockLeft, Bool.and_eq_true, decide_eq_true_eq, hfunction,
        hblock, and_true]
  | calleeInstance i callee =>
      obtain ⟨-, rfl, -⟩ := hscope
      simp only [retainScope, FactScope.contains, FactScope.blockLeft, Bool.and_eq_true, decide_eq_true_eq, hfunction,
        hsame', and_true]
  | inlineClone function clone blocks =>
      cases live with
      | false =>
          simp only [retainScope, FactScope.contains, FactScope.blockLeft, Bool.and_eq_true, decide_eq_true_eq,
            Bool.false_eq_true, if_false, hfunction, hblock, hsame', Bool.not_false, Bool.true_or,
            and_true]
      | true =>
          simp only [retainScope, if_true, FactScope.contains, FactScope.blockLeft, Bool.and_eq_true,
            decide_eq_true_eq, List.contains_iff_mem, List.mem_filter, hfunction, hblock, hsame',
            Bool.not_true, Bool.false_or, and_assoc]
          refine and_congr_right fun heq ↦ ?_
          rw [heq]

/-- A fact may be used after a rebuild where it could be used before, unless it belongs to a live
clone and the block has gone. -/
theorem Kept.dominates {rebuilt : ContractFactSet} {a a' : ContractFactInstance}
    (h : Kept set m needed rebuilt a a') (hid : a.id ∈ needed) {old new : FactId}
    {fact fact' : Fact} (hold : set.facts.get old = some fact)
    (horigin : fact.origin = .trustedContract a.id) (hnew : rebuilt.facts.get new = some fact')
    (horigin' : fact'.origin = .trustedContract a'.id)
    (hscope : fact'.scope = retainScope m (a.id ∈ set.liveInstances m) a'.id fact.scope)
    (hscopes : a.Scopes fact.scope) (site : FactUseSite) :
    contractFactDominatesAt rebuilt new (rebuiltSite site needed) =
      (contractFactDominatesAt set old site &&
        fact.scope.blockLeft m (a.id ∈ set.liveInstances m) site) := by
  have hsame : site.contractInstance.map needed.idxOf = some a'.id ↔
      site.contractInstance = some a.id := by
    rw [h.id, Option.map_eq_some_iff]
    constructor
    · rintro ⟨i, hi, heq⟩
      rw [hi, (List.idxOf_inj hid).mp heq.symm]
    · exact fun hi ↦ ⟨a.id, hi, rfl⟩
  have hguard : ((site.contractInstance.map needed.idxOf).isSome ∧
      site.contractInstance.map needed.idxOf ≠ some a'.id) ↔
        (site.contractInstance.isSome ∧ site.contractInstance ≠ some a.id) := by
    rw [Option.isSome_map, ne_eq, ne_eq, hsame]
  unfold contractFactDominatesAt
  rw [hold, hnew]
  dsimp only
  rw [horigin, horigin', hscope]
  dsimp only
  rw [contains_retained hscopes hsame]
  by_cases hother : site.contractInstance.isSome ∧ site.contractInstance ≠ some a.id
  · rw [if_pos hother, Bool.false_and]
    exact if_pos (hguard.mpr hother)
  · rw [if_neg hother]
    exact if_neg fun h ↦ hother (hguard.mp h)

end ContractFactSet

end CalcKernel
