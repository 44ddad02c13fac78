import CalcKernel.Backend.Wasm.Structured

/-!
# Labels and scopes of a plan

What `collect_labels` and `validate_scopes` establish: every item has its label, labels
of different blocks differ, and every edge is recorded with a target that is in scope.
-/

namespace CalcKernel

/-! ## Labels -/

theorem toString_nat_injective {m n : Nat} (h : toString m = toString n) : m = n := by
  rw [Nat.toString_eq_ofList_toDigits, Nat.toString_eq_ofList_toDigits, String.ofList_inj] at h
  rw [← Nat.ofDigitChars_ten_toDigits (n := m), h, Nat.ofDigitChars_ten_toDigits]

theorem forwardLabel_injective {a b : BlockId} (h : forwardLabel a = forwardLabel b) : a = b := by
  have hlist := congrArg String.toList h
  simp only [forwardLabel, String.toList_append, List.append_cancel_left_eq, String.toList_inj]
    at hlist
  exact toString_nat_injective hlist

theorem loopLabel_injective {a b : BlockId} (h : loopLabel a = loopLabel b) : a = b := by
  have hlist := congrArg String.toList h
  simp only [loopLabel, String.toList_append, List.append_cancel_left_eq, String.toList_inj]
    at hlist
  exact toString_nat_injective hlist

theorem loopLabel_ne_forwardLabel (a b : BlockId) : loopLabel a ≠ forwardLabel b := by
  intro h
  have hlist := congrArg String.toList h
  simp [loopLabel, forwardLabel, String.toList_append] at hlist

/-- The labels are those of the source's naming scheme. -/
structure StructureLabels.Named (labels : StructureLabels) : Prop where
  forward : ∀ b l, labels.forward.lookup b = some l → l = forwardLabel b
  loop : ∀ b l, labels.loop.lookup b = some l → l = loopLabel b

namespace StructureItems

/-- The block of every item, in the region and inside its loops. -/
def deepHeads : StructureItems → List BlockId
  | .nil => []
  | .block id rest => id :: rest.deepHeads
  | .loop header body rest => header :: (body.deepHeads ++ rest.deepHeads)

def headers : StructureItems → List BlockId
  | .nil => []
  | .block _ rest => rest.headers
  | .loop header body rest => header :: (body.headers ++ rest.headers)

theorem heads_subset_deepHeads (items : StructureItems) : items.heads ⊆ items.deepHeads := by
  induction items with
  | nil => exact List.Subset.refl _
  | block id rest ih => exact List.cons_subset_cons id ih
  | loop header body rest _ ih =>
      exact List.cons_subset_cons header (List.Subset.trans ih (List.subset_append_right _ _))

end StructureItems

theorem lookup_cons_named {b k : BlockId} {l : String} {name : BlockId → String}
    {labels : List (BlockId × String)} (hnamed : ∀ b l, labels.lookup b = some l → l = name b)
    (h : ((k, name k) :: labels).lookup b = some l) : l = name b := by
  rw [List.lookup_cons] at h
  split at h
  · rename_i hk
    obtain rfl : b = k := by simpa using hk
    exact (Option.some.inj h).symm
  · exact hnamed b l h

theorem isSome_lookup_cons {b k : BlockId} {l : String} {labels : List (BlockId × String)}
    (h : b = k ∨ (labels.lookup b).isSome) : (((k, l) :: labels).lookup b).isSome := by
  rw [List.lookup_cons]
  split
  · exact Option.isSome_some
  · rename_i hk
    exact h.resolve_left (by simpa using hk)

/-- What collecting does to the labels there are. -/
structure LabelsGrow (owner : Option BlockId) (items : StructureItems)
    (labels labels' : StructureLabels) : Prop where
  named : labels.Named → labels'.Named
  keepForward : ∀ b, (labels.forward.lookup b).isSome → (labels'.forward.lookup b).isSome
  keepLoop : ∀ b, (labels.loop.lookup b).isSome → (labels'.loop.lookup b).isSome
  heads : ∀ b ∈ items.deepHeads, owner = some b ∨ (labels'.forward.lookup b).isSome
  headers : ∀ b ∈ items.headers, (labels'.loop.lookup b).isSome

namespace StructureItems

theorem addForward_grow (owner : Option BlockId) (id : BlockId) (labels : StructureLabels) :
    LabelsGrow owner (.block id .nil) labels (labels.addForward owner id) := by
  by_cases howner : owner = some id
  · have hsame : labels.addForward owner id = labels := if_neg (not_not.mpr howner)
    rw [hsame]
    refine ⟨fun h ↦ h, fun b h ↦ h, fun b h ↦ h, fun b hb ↦ Or.inl ?_, by simp [headers]⟩
    rw [howner, List.mem_singleton.mp hb]
  · have hadd : labels.addForward owner id =
        ⟨(id, forwardLabel id) :: labels.forward, labels.loop⟩ := if_pos howner
    rw [hadd]
    refine ⟨fun h ↦ ⟨fun b l ↦ lookup_cons_named h.forward, h.loop⟩,
      fun b h ↦ isSome_lookup_cons (Or.inr h), fun b h ↦ h, fun b hb ↦ Or.inr ?_, by simp [headers]⟩
    exact isSome_lookup_cons (Or.inl (List.mem_singleton.mp hb))

theorem collectLabels_grow (items : StructureItems) (owner : Option BlockId)
    (labels : StructureLabels) :
    LabelsGrow owner items labels (items.collectLabels owner labels) := by
  induction items generalizing owner labels with
  | nil => exact ⟨fun h ↦ h, fun b h ↦ h, fun b h ↦ h, by simp [deepHeads], by simp [headers]⟩
  | block id rest ih =>
      have hadd := addForward_grow owner id labels
      have hrest := ih owner (labels.addForward owner id)
      rw [collectLabels]
      refine ⟨fun h ↦ hrest.named (hadd.named h), fun b h ↦ hrest.keepForward b (hadd.keepForward b h),
        fun b h ↦ hrest.keepLoop b (hadd.keepLoop b h), fun b hb ↦ ?_, hrest.headers⟩
      rcases List.mem_cons.mp hb with rfl | hb
      · exact (hadd.heads b List.mem_cons_self).imp_right (hrest.keepForward b)
      · exact hrest.heads b hb
  | loop header body rest ihBody ihRest =>
      have hadd := addForward_grow owner header labels
      have hbody := ihBody (some header) ((labels.addForward owner header).addLoop header)
      have hrest := ihRest owner
        (body.collectLabels (some header) ((labels.addForward owner header).addLoop header))
      rw [collectLabels]
      refine ⟨fun h ↦ hrest.named (hbody.named ⟨(hadd.named h).forward, fun b l ↦
          lookup_cons_named (hadd.named h).loop⟩),
        fun b h ↦ hrest.keepForward b (hbody.keepForward b (hadd.keepForward b h)),
        fun b h ↦ hrest.keepLoop b (hbody.keepLoop b
          (isSome_lookup_cons (Or.inr (hadd.keepLoop b h)))),
        fun b hb ↦ ?_, fun b hb ↦ ?_⟩
      · have hheader := (hadd.heads header List.mem_cons_self).imp_right fun h ↦
          hrest.keepForward header (hbody.keepForward header h)
        rcases List.mem_cons.mp hb with rfl | hb
        · exact hheader
        · rcases List.mem_append.mp hb with hb | hb
          · rcases hbody.heads b hb with heq | h
            · cases heq
              exact hheader
            · exact Or.inr (hrest.keepForward b h)
          · exact hrest.heads b hb
      · rcases List.mem_cons.mp hb with rfl | hb
        · exact hrest.keepLoop b (hbody.keepLoop b (isSome_lookup_cons (Or.inl (Eq.refl b))))
        · rcases List.mem_append.mp hb with hb | hb
          · exact hrest.keepLoop b (hbody.headers b hb)
          · exact hrest.headers b hb

end StructureItems

/-- What holds of the labels of a whole plan. -/
structure StructureLabels.Complete (labels : StructureLabels) (items : StructureItems) : Prop
    extends labels.Named where
  heads : ∀ b ∈ items.deepHeads, (labels.forward.lookup b).isSome
  headers : ∀ b ∈ items.headers, (labels.loop.lookup b).isSome

theorem StructureItems.collectLabels_complete (items : StructureItems) :
    (items.collectLabels none ⟨[], []⟩).Complete items := by
  have h := items.collectLabels_grow none ⟨[], []⟩
  refine ⟨h.named ⟨by simp, by simp⟩, fun b hb ↦ ?_, h.headers⟩
  exact (h.heads b hb).resolve_left (by simp)

/-! ## Scopes -/

/-- Every edge of the blocks in a region is recorded with a target in scope. -/
def KirFunction.Scoped (f : KirFunction) (labels : StructureLabels)
    (recorded : List ((BlockId × Nat) × BranchTarget)) :
    List BlockId → List BlockId → StructureItems → Prop
  | _, _, .nil => True
  | activeLoops, inheritedForward, .block id rest =>
      (∃ source, f.block? id = some source ∧ ∀ arm ∈ source.terminator.outgoingEdges,
        ∃ target, scopedTarget labels activeLoops (rest.heads ++ inheritedForward)
          arm.2.target = some target ∧ ((id, arm.1), target) ∈ recorded) ∧
      Scoped f labels recorded activeLoops inheritedForward rest
  | activeLoops, inheritedForward, .loop header body rest =>
      Scoped f labels recorded (header :: activeLoops) (rest.heads ++ inheritedForward) body ∧
      Scoped f labels recorded activeLoops inheritedForward rest

section Validate

variable {f : KirFunction} {labels : StructureLabels} {activeLoops inheritedForward : List BlockId}
  {recorded targets targets' : List ((BlockId × Nat) × BranchTarget)} {items : StructureItems}

theorem Scoped_mono (hsub : targets ⊆ targets')
    (h : f.Scoped labels targets activeLoops inheritedForward items) :
    f.Scoped labels targets' activeLoops inheritedForward items := by
  induction items generalizing activeLoops inheritedForward with
  | nil => exact h
  | block id rest ih =>
      obtain ⟨⟨source, hsource, harms⟩, hrest⟩ := h
      refine ⟨⟨source, hsource, fun arm harm ↦ ?_⟩, ih hrest⟩
      obtain ⟨target, htarget, hmem⟩ := harms arm harm
      exact ⟨target, htarget, hsub hmem⟩
  | loop header body rest ihBody ihRest => exact ⟨ihBody h.1, ihRest h.2⟩

/-- Targets are added, each edge once. -/
def Recorded (targets targets' : List ((BlockId × Nat) × BranchTarget)) : Prop :=
  targets ⊆ targets' ∧ ((targets.map (·.1)).Nodup → (targets'.map (·.1)).Nodup)

theorem Recorded.trans {targets'' : List ((BlockId × Nat) × BranchTarget)}
    (h : Recorded targets targets') (h' : Recorded targets' targets'') :
    Recorded targets targets'' := ⟨List.Subset.trans h.1 h'.1, fun hnodup ↦ h'.2 (h.2 hnodup)⟩

theorem recordTarget_eq_some {forward : List BlockId} {id : BlockId} {arm : Nat × KirEdge}
    (h : recordTarget labels activeLoops forward id targets arm = some targets') :
    Recorded targets targets' ∧ ∃ target,
      scopedTarget labels activeLoops forward arm.2.target = some target ∧
        ((id, arm.1), target) ∈ targets' := by
  obtain ⟨target, htarget, h⟩ := Option.bind_eq_some_iff.mp h
  split at h
  · cases h
  · rename_i hfresh
    cases h
    refine ⟨⟨List.subset_cons_self _ _, fun hnodup ↦ ?_⟩, target, htarget, List.mem_cons_self⟩
    rw [List.map_cons, List.nodup_cons]
    refine ⟨fun hmem ↦ hfresh ?_, hnodup⟩
    obtain ⟨⟨key, value⟩, hpair, hkey⟩ := List.mem_map.mp hmem
    obtain rfl : key = (id, arm.1) := hkey
    rw [Lib.lookup_of_mem hnodup hpair]
    exact Option.isSome_some

theorem recordTargets_eq_some {forward : List BlockId} {id : BlockId}
    {arms : List (Nat × KirEdge)}
    (h : arms.foldlM (recordTarget labels activeLoops forward id) targets = some targets') :
    Recorded targets targets' ∧ ∀ arm ∈ arms, ∃ target,
      scopedTarget labels activeLoops forward arm.2.target = some target ∧
        ((id, arm.1), target) ∈ targets' := by
  induction arms generalizing targets with
  | nil =>
      cases h
      exact ⟨⟨List.Subset.refl _, fun h ↦ h⟩, by simp⟩
  | cons arm arms ih =>
      rw [List.foldlM_cons] at h
      obtain ⟨targets₁, hfirst, h⟩ := Option.bind_eq_some_iff.mp h
      obtain ⟨hrec₁, target, htarget, hmem⟩ := recordTarget_eq_some hfirst
      obtain ⟨hrec₂, hrest⟩ := ih h
      refine ⟨hrec₁.trans hrec₂, fun arm' harm' ↦ ?_⟩
      rcases List.mem_cons.mp harm' with rfl | harm'
      · exact ⟨target, htarget, hrec₂.1 hmem⟩
      · exact hrest arm' harm'

theorem validateScopes_eq_some
    (h : f.validateScopes labels activeLoops inheritedForward items targets = some targets') :
    Recorded targets targets' ∧ f.Scoped labels targets' activeLoops inheritedForward items := by
  induction items generalizing activeLoops inheritedForward targets targets' with
  | nil =>
      cases h
      exact ⟨⟨List.Subset.refl _, fun h ↦ h⟩, trivial⟩
  | block id rest ih =>
      rw [KirFunction.validateScopes] at h
      obtain ⟨source, hsource, h⟩ := Option.bind_eq_some_iff.mp h
      obtain ⟨targets₁, hfold, h⟩ := Option.bind_eq_some_iff.mp h
      obtain ⟨hrec₁, harms⟩ := recordTargets_eq_some hfold
      obtain ⟨hrec₂, hrest⟩ := ih h
      refine ⟨hrec₁.trans hrec₂, ⟨source, hsource, fun arm harm ↦ ?_⟩, hrest⟩
      obtain ⟨target, htarget, hmem⟩ := harms arm harm
      exact ⟨target, htarget, hrec₂.1 hmem⟩
  | loop header body rest ihBody ihRest =>
      rw [KirFunction.validateScopes] at h
      obtain ⟨targets₁, hbody, h⟩ := Option.bind_eq_some_iff.mp h
      obtain ⟨hrec₁, hscopedBody⟩ := ihBody hbody
      obtain ⟨hrec₂, hrest⟩ := ihRest h
      exact ⟨hrec₁.trans hrec₂, Scoped_mono hrec₂.1 hscopedBody, hrest⟩

end Validate

end CalcKernel
