import CalcKernel.Kir.BuilderOrigins

/-!
# The region recorded on a place

In an activation of a built function whose edges pass each slot what the layout
order promises, the region of every place denotes the storage the place points
into.  Without that condition it need not: the region of a slot at a join is the
one of its last assignment in layout order, whichever way the join was entered.
-/

namespace CalcKernel

/-- What construction guarantees about a function: a labelling of its values. -/
structure BuiltLabelled (f : MirFunction) (g : KirFunction) (base : MemoryRegionId)
    (L : Labelling) : Prop where
  conservative : g.IsConservative base
  numbered : ∃ n, g.regions.map (·.id) = List.range' base n
  instructions : ∀ b ∈ g.blocks, ∀ i ∈ b.instructions,
    i.Labelled base L g.regions ∧ ∀ p ∈ i.kind.places, p.Labelled base L
  params : ∀ p ∈ g.params, isMemoryOriginType p.typeNode → Originates g.regions (L p.value) p.value
  slots : ∀ (k : Nat) (b : KirBlock), g.blocks[k]? = some b →
    ∀ (j : Nat) (param : KirBlockParam), b.params[j]? = some param →
      ∃ slot, f.slots[j]? = some slot ∧ L param.value = base + (f.layoutScan k).origin slot.1

section Built

variable {f : MirFunction} {config : KirBuildConfig} {ids ids' : KirIds} {g : KirFunction}

/-- The label of a reserved block parameter: the origin its slot has at the head of the block. -/
def reservedLabel (f : MirFunction) (base : MemoryRegionId) (first : Nat) (L : Labelling) :
    Labelling := fun (v : Nat) ↦
  if first ≤ v ∧ v < first + (f.blocks.length - 1) * f.slots.length then
    match f.slots[(v - first) % f.slots.length]? with
    | some slot =>
        base + (f.layoutScan ((v - first) / f.slots.length + 1)).origin slot.1
    | none => base
  else L v

theorem BlockPlan.params_getElem? {plan : BlockPlan} {k j : Nat} {param : KirBlockParam}
    (h : (plan.params k)[j]? = some param) :
    k ≠ 0 ∧ ∃ slot, plan.slots[j]? = some slot ∧
      param = ⟨plan.firstParam + (k - 1) * plan.slots.length + j, slot.2.1, .scalar slot.2.2⟩ := by
  unfold params at h
  split at h
  · cases h
  · rename_i hk
    rw [slotParams, List.getElem?_mapIdx] at h
    obtain ⟨slot, hslot, rfl⟩ := Option.map_eq_some_iff.mp h
    exact ⟨hk, slot, hslot, rfl⟩

theorem reservedLabel_param {base : MemoryRegionId} {first : Nat} {L : Labelling} {k j : Nat}
    {slot : Slot} (hk : k ≠ 0) (hlen : k < f.blocks.length) (hslot : f.slots[j]? = some slot) :
    first + (k - 1) * f.slots.length + j < first + (f.blocks.length - 1) * f.slots.length ∧
      reservedLabel f base first L (first + (k - 1) * f.slots.length + j) =
        base + (f.layoutScan k).origin slot.1 := by
  obtain ⟨hj, _⟩ := List.getElem?_eq_some_iff.mp hslot
  have hrow : (k - 1) * f.slots.length + f.slots.length ≤
      (f.blocks.length - 1) * f.slots.length := by
    rw [← Nat.succ_mul]
    exact Nat.mul_le_mul_right _ (by omega)
  have hlt : first + (k - 1) * f.slots.length + j <
      first + (f.blocks.length - 1) * f.slots.length := by omega
  refine ⟨hlt, ?_⟩
  have hsub : first + (k - 1) * f.slots.length + j - first = j + f.slots.length * (k - 1) := by
    rw [Nat.mul_comm f.slots.length]
    omega
  have hpos : 0 < f.slots.length := Nat.zero_lt_of_lt hj
  have hdiv : (j + f.slots.length * (k - 1)) / f.slots.length + 1 = k := by
    rw [Nat.add_mul_div_left _ _ hpos, Nat.div_eq_of_lt hj]
    omega
  have hmod : (j + f.slots.length * (k - 1)) % f.slots.length = j := by
    rw [Nat.add_mul_mod_self_left, Nat.mod_eq_of_lt hj]
  rw [reservedLabel, if_pos ⟨by omega, hlt⟩, hsub, hmod, hslot, hdiv]

/-- Construction labels the function it builds. -/
theorem buildFunction_labelled (ht : f.OriginsTracked)
    (hb : buildFunction f config ids = .ok (g, ids')) :
    ∃ L, BuiltLabelled f g ids.region L := by
  unfold buildFunction at hb
  split at hb
  case isTrue => cases hb
  case isFalse hblocks =>
  obtain ⟨⟨blocks, b⟩, hbuild, hb⟩ := Lib.bind_eq_ok.mp hb
  cases Lib.pure_eq_ok.mp hb
  obtain ⟨L₀, hentry, hgrows₀, hparams⟩ := entryBuilder_fits f ids
  have hreserved : Fits ids.region
      (reservedLabel f ids.region (entryBuilder f ids).ids.value L₀) (.start f)
      (reserveBlocks f (entryBuilder f ids)) := by
    refine hentry.reserve (Nat.le_add_right _ _) rfl ?_ ?_
    · intro v hv
      exact if_neg fun h ↦ absurd hv (Nat.not_lt.mpr h.1)
    · intro v hv
      have hv' : (entryBuilder f ids).ids.value +
          (f.blocks.length - 1) * f.slots.length ≤ v := hv
      rw [reservedLabel, if_neg fun h ↦ absurd h.2 (Nat.not_lt.mpr hv')]
      exact hentry.fresh v ((Nat.le_add_right _ _).trans hv')
  have hslots : ∀ k, 0 ≤ k → k < f.blocks.length →
      SlotsLabelled (blockPlan f config ids)
        (reservedLabel f ids.region (entryBuilder f ids).ids.value L₀) (f.layoutScan k) k
        (reserveBlocks f (entryBuilder f ids)).ids.value := by
    intro k _ hk j slot param hslot hparam
    obtain ⟨hk0, slot', hslot', rfl⟩ := BlockPlan.params_getElem? hparam
    obtain rfl : slot = slot' := Option.some.inj (hslot.symm.trans hslot')
    exact reservedLabel_param hk0 hk hslot
  obtain ⟨L, ⟨s, hfits⟩, hgrows, hemitted, hbuilt⟩ :=
    buildBlocks_built ht rfl hreserved hslots hbuild
  have hreserve : Grows L₀ (entryBuilder f ids)
      (reservedLabel f ids.region (entryBuilder f ids).ids.value L₀)
      (reserveBlocks f (entryBuilder f ids)) :=
    ⟨Nat.le_add_right _ _, fun v hv ↦ if_neg fun h ↦ absurd hv (Nat.not_lt.mpr h.1),
      List.Subset.refl _⟩
  have hgrowsEntry := hreserve.trans hgrows
  refine ⟨L, ?_, ⟨_, hfits.numbered⟩, ?_, ?_, ?_⟩
  · have hopen := (hgrows₀.trans hgrowsEntry).regions (List.mem_singleton_self _)
    exact ⟨_, hopen, rfl, rfl⟩
  · intro block hblock i hi
    exact ⟨(hemitted block hblock i hi).labelled, (hemitted block hblock i hi).places⟩
  · intro p hp htype
    obtain ⟨j, hj, rfl⟩ := List.mem_mapIdx.mp hp
    obtain ⟨hlt, horigin⟩ := hparams j f.params[j] (List.getElem?_eq_getElem hj) htype
    have hL : L (ids.value + j) = L₀ (ids.value + j) := hgrowsEntry.label _ hlt
    simpa only [hL] using horigin.mono hgrowsEntry.regions
  · intro k block hblock j param hparam
    obtain ⟨hk, hblockParams⟩ := hbuilt k block hblock
    rw [Nat.zero_add] at hk hblockParams
    rw [hblockParams] at hparam
    obtain ⟨_, slot, hslot, _⟩ := BlockPlan.params_getElem? hparam
    obtain ⟨hlt, hL⟩ := hslots k (Nat.zero_le _) hk j slot param hslot hparam
    exact ⟨slot, hslot, (hgrows.label _ hlt).trans hL⟩

end Built

/-! ## Runs -/

/-- Every slot passed along the edge holds an address from the assignment that stands last before
the target in layout order, or no address, or nothing is known of it there. -/
def SlotsAgree (f : MirFunction) (g : KirFunction) (P : ProvenanceEnv) (edge : KirEdge)
    (target : KirBlock) : Prop :=
  ∀ (k : Nat) (h : k < g.blocks.length), g.blocks[k] = target →
    ∀ p ∈ f.slots.zip edge.args,
      (f.layoutScan k).origin p.1.1 = 0 ∨ P p.2 = .noAddress ∨
        (g.regions[(f.layoutScan k).origin p.1.1]?.bind fun r ↦ r.origin.value?).map .derived =
          some (P p.2)

/-- Every edge taken in the past agreed with the layout order. -/
def TrailAgrees (f : MirFunction) (g : KirFunction) : List Moment → Prop
  | [] => True
  | ⟨.follow edge target, _⟩ :: past =>
      SlotsAgree f g (provenanceOf past) edge target ∧ TrailAgrees f g past
  | ⟨.enter _, _⟩ :: past | ⟨.execute _, _⟩ :: past => TrailAgrees f g past

instance (f : MirFunction) (g : KirFunction) (P : ProvenanceEnv) (edge : KirEdge)
    (target : KirBlock) : Decidable (SlotsAgree f g P edge target) :=
  inferInstanceAs (Decidable (∀ (k : Nat) (_ : k < _), _))

def decideTrailAgrees (f : MirFunction) (g : KirFunction) :
    (past : List Moment) → Decidable (TrailAgrees f g past)
  | [] => .isTrue trivial
  | ⟨.follow _ _, _⟩ :: past => @instDecidableAnd _ _ inferInstance (decideTrailAgrees f g past)
  | ⟨.enter _, _⟩ :: past | ⟨.execute _, _⟩ :: past => decideTrailAgrees f g past

instance (f : MirFunction) (g : KirFunction) (past : List Moment) :
    Decidable (TrailAgrees f g past) := decideTrailAgrees f g past

section Runs

variable {f : MirFunction} {g : KirFunction} {base : MemoryRegionId} {L : Labelling}
variable {t : TargetModel} {past : List Moment} {frame : Frame} {memory : Memory}

theorem BuiltLabelled.enter_sound (h : BuiltLabelled f g base L) :
    Sound base L g.regions (.enter g) := by
  intro v
  unfold ProvenanceEnv.enter
  cases hfind : g.params.find? (·.value = v) with
  | none => exact .inr (.inl rfl)
  | some p =>
      have hv : p.value = v := by simpa using List.find?_some hfind
      subst hv
      have hp := h.params p (List.mem_of_find?_eq_some hfind)
      cases htype : p.typeNode with
      | pointer | slice =>
          refine .inr (.inr ⟨p.value, by simp [htype], hp ?_⟩)
          rw [htype]
          rfl
      | primitive | struct | void => exact .inr (.inl (by simp [htype]))

theorem BuiltLabelled.region_id (h : BuiltLabelled f g base L) {o : Nat}
    {region : KirMemoryRegion} (ho : g.regions[o]? = some region) : region.id = base + o := by
  obtain ⟨n, hn⟩ := h.numbered
  have hid := congrArg (·[o]?) hn
  obtain ⟨hlt, _⟩ := List.getElem?_eq_some_iff.mp ho
  have hlen : o < n := by
    have := congrArg List.length hn
    simp only [List.length_map, List.length_range'] at this
    omega
  simpa [ho, List.getElem?_range' hlen] using hid

theorem BuiltLabelled.follow_sound (h : BuiltLabelled f g base L) {P : ProvenanceEnv}
    (hP : Sound base L g.regions P) {edge : KirEdge} {target : KirBlock}
    (htarget : target ∈ g.blocks) (hagree : SlotsAgree f g P edge target) :
    Sound base L g.regions (P.follow edge target) := by
  obtain ⟨k, hk, rfl⟩ := List.mem_iff_getElem.mp htarget
  refine hP.follow ?_
  intro j param arg hparam harg
  obtain ⟨slot, hslot, hL⟩ := h.slots k _ (List.getElem?_eq_getElem hk) j param hparam
  have hmem : (slot, arg) ∈ f.slots.zip edge.args :=
    List.mem_iff_getElem?.mpr ⟨j, List.getElem?_zip_eq_some.mpr ⟨hslot, harg⟩⟩
  rcases hagree k hk rfl _ hmem with ho | hnone | ho
  · exact .inl (by rw [hL, ho, Nat.add_zero])
  · exact .inr (.inl hnone)
  · obtain ⟨v, hv, hP'⟩ := Option.map_eq_some_iff.mp ho
    obtain ⟨region, hregion, hvalue⟩ := Option.bind_eq_some_iff.mp hv
    refine .inr (.inr ⟨v, hP'.symm, region, List.mem_of_getElem? hregion, ?_, hvalue⟩)
    rw [hL, h.region_id hregion]

/-- The run lemma: labels stay sound along an activation. -/
theorem BuiltLabelled.activation_sound (h : BuiltLabelled f g base L)
    (hact : Activation t g past frame memory) (htrail : TrailAgrees f g past) :
    Sound base L g.regions (provenanceOf past) := by
  induction hact with
  | enter => exact h.enter_sound
  | execute hact hrest _ ih | call hact hrest _ _ ih =>
      obtain ⟨hlabel, hplaces⟩ := h.instructions _ hact.block_mem _ (hact.head_mem_instructions hrest)
      exact (ih htrail).execute hlabel hplaces
  | follow hact _ _ hfollow ih =>
      obtain ⟨b, xs, hb, _, _, rfl⟩ := Frame.follow_eq_some hfollow
      rw [hact.function_eq] at hb
      exact h.follow_sound (ih htrail.2) (KirFunction.mem_blocks_of_block? hb).1 htrail.1

theorem BuiltLabelled.denotes (h : BuiltLabelled f g base L) {P : ProvenanceEnv}
    (hP : Sound base L g.regions P) {p : KirPlace} (hp : p.Labelled base L) :
    g.Denotes p.region (p.provenance P) := by
  rcases KirPlace.sound_of_labelled hP hp with hbase | hnone | ⟨o, ho, region, hmem, hid, hvalue⟩
  · have hcons : g.IsConservative p.region := hbase ▸ h.conservative
    cases p.provenance P with
    | noAddress => trivial
    | unknown => exact hcons
    | derived v => exact .inl hcons
  · rw [hnone]
    trivial
  · rw [ho]
    exact .inr ⟨region, hmem, hvalue, hid ▸ .self _⟩

/-- In every activation whose edges agree with the layout order, the region of every place the
next instruction uses denotes the storage the place points into. -/
theorem placeRegion_denotes {config : KirBuildConfig} {ids ids' : KirIds}
    (hb : buildFunction f config ids = .ok (g, ids')) (ht : f.OriginsTracked)
    (hact : Activation t g past frame memory) (htrail : TrailAgrees f g past)
    {i : KirInstruction} {rest : List KirInstruction} (hrest : frame.rest = i :: rest)
    {p : KirPlace} (hp : p ∈ i.kind.places) :
    g.Denotes p.region (p.provenance (provenanceOf past)) := by
  obtain ⟨L, hL⟩ := buildFunction_labelled ht hb
  obtain ⟨_, hplaces⟩ := hL.instructions _ hact.block_mem _ (hact.head_mem_instructions hrest)
  exact hL.denotes (hL.activation_sound hact htrail) (hplaces p hp)

end Runs

/-! ## A slice that holds one of two parameters -/

/-- `fn pick(p: slice<i32>, q: slice<i32>, c: bool) -> i32
{ let t = p; if (c) { t = q; } return t[0]; }` -/
def pickMir : MirFunction where
  name := "pick"
  exported := false
  params := [⟨"p", .slice .i32⟩, ⟨"q", .slice .i32⟩, ⟨"c", .bool⟩]
  returnType := .i32
  locals := [⟨"t", .slice .i32⟩]
  blocks :=
    [⟨"bb0", [.move (.local "t" (.slice .i32)) (.param "p" (.slice .i32))],
      .branch (.param "c" .bool) "bb1" "bb2"⟩,
    ⟨"bb1", [.move (.local "t" (.slice .i32)) (.param "q" (.slice .i32))], .jump "bb2"⟩,
    ⟨"bb2", [.load (.temp "0" .i32)
      (.sliceIndex (.local "t" (.slice .i32)) (.constInt "0" .i32) .i32)],
      .return (some (.temp "0" .i32))⟩]

def uncheckedConfig : KirBuildConfig := ⟨.c, .unchecked, .unchecked, .disabled⟩

/-- Construction of `pick` succeeds with this function. -/
def pickKir : KirFunction :=
  match buildFunction pickMir uncheckedConfig {} with
  | .ok (g, _) => g
  | .error _ => ⟨0, "", false, [], .void, [], [], [], []⟩

theorem pickKir_built :
    ∃ ids, buildFunction pickMir uncheckedConfig {} = .ok (pickKir, ids) := ⟨_, rfl⟩

def zeroFloats : FloatOps where
  literal _ := some 0
  ofInt _ := 0
  add a _ := a
  sub a _ := a
  mul a _ := a
  div a _ := a
  neg a := a
  eq a b := a = b
  lt _ _ := false
  le _ _ := true

/-- A call of `pick` up to the load. -/
def pickRun (c : Bool) : Option ActivationState :=
  (ActivationState.start pickKir [.slice 100 1, .slice 200 1, .bool c] (fun _ ↦ none)).bind
    (·.runFor (lp64 zeroFloats) (if c then 4 else 3))

def pickState (c : Bool) : ActivationState :=
  (pickRun c).get (by cases c <;> decide +kernel)

def pickPlace : KirPlace := .sliceIndex 12 4 .i32 2

def pickLoad : KirInstruction :=
  ⟨2, [⟨13, .scalar .i32⟩], .load pickPlace, some ⟨0, 2, none⟩, some ⟨0, .readMemory⟩⟩

theorem pickState_activation (c : Bool) : Activation (lp64 zeroFloats) pickKir
    (pickState c).past (pickState c).frame (pickState c).memory := by
  have hrun : pickRun c = some (pickState c) := by simp [pickState]
  obtain ⟨a, ha, hrun⟩ := Option.bind_eq_some_iff.mp hrun
  exact ActivationState.runFor_activation (ActivationState.start_activation ha) hrun

theorem pickState_rest (c : Bool) : (pickState c).frame.rest = [pickLoad] := by
  cases c <;> decide +kernel

theorem KirFunction.Within.eq_of_roots {f : KirFunction} {q r : MemoryRegionId}
    (hw : f.Within q r) (h : ∀ region ∈ f.regions, region.parent = none) : q = r := by
  cases hw with
  | self => rfl
  | parent hregion _ hparent _ => rw [h _ hregion] at hparent; cases hparent

/-- When `c` is false the place `t[0]` is recorded in the region of `q`, and points into `p`. -/
theorem pick_region_not_denoted :
    (∃ ids, buildFunction pickMir uncheckedConfig {} = .ok (pickKir, ids)) ∧
      Activation (lp64 zeroFloats) pickKir (pickState false).past (pickState false).frame
        (pickState false).memory ∧
      (pickState false).frame.rest = [pickLoad] ∧ pickPlace ∈ pickLoad.kind.places ∧
      ¬ pickKir.Denotes pickPlace.region
        (pickPlace.provenance (provenanceOf (pickState false).past)) := by
  refine ⟨pickKir_built, pickState_activation false, pickState_rest false, by decide, ?_⟩
  have hprovenance : pickPlace.provenance (provenanceOf (pickState false).past) = .derived 0 := by
    decide +kernel
  rw [hprovenance]
  rintro (⟨region, hmem, hid, horigin⟩ | ⟨region, hmem, hvalue, hwithin⟩)
  · have hroot : ∀ region ∈ pickKir.regions,
        region.id = pickPlace.region → region.origin ≠ .conservative := by decide +kernel
    exact hroot region hmem hid horigin
  · have hroots : ∀ region ∈ pickKir.regions, region.parent = none := by decide +kernel
    have hother : ∀ region ∈ pickKir.regions,
        region.id = pickPlace.region → region.origin.value? ≠ some 0 := by decide +kernel
    exact hother region hmem (hwithin.eq_of_roots hroots) hvalue

/-- When `c` is true the join is entered as it is laid out. -/
theorem pick_region_denoted : pickKir.Denotes pickPlace.region
    (pickPlace.provenance (provenanceOf (pickState true).past)) := by
  obtain ⟨ids, hbuilt⟩ := pickKir_built
  exact placeRegion_denotes hbuilt (by decide +kernel) (pickState_activation true)
    (by decide +kernel) (pickState_rest true) (by decide)

end CalcKernel
