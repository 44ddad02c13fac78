import Mathlib.Data.List.Induction
import Mathlib.Data.List.Perm.Basic
import Mathlib.Order.Nat
import CalcKernel.Kir.Builder
import CalcKernel.Lib.Assoc

/-!
# Identities of built KIR

Construction hands out identities in increasing order, so a built function defines
every value once and numbers its regions; each region that carries an interval
belongs to the subslice instruction with the same bounds.
-/

namespace CalcKernel

/-- A region and the instruction it was made for.  Only raw slices and subslices have parents, and
only subslices have intervals. -/
structure KirMemoryRegion.Matches (r : KirMemoryRegion) (is : List KirInstruction) : Prop where
  parent : ∀ p, r.parent = some p →
    ∃ x, r.origin.value? = some x ∧ ∃ i ∈ is, i.defs = [x] ∧
      ((∃ d n, i.kind = .makeSlice d n) ∨ ∃ s lo hi, i.kind = .subslice s lo hi)
  interval : ∀ iv, r.byteInterval = some iv →
    ∃ x s, r.origin = .subslice x ∧ ∃ i ∈ is, i.kind = .subslice s iv.start iv.stop ∧
      i.results = [⟨x, .scalar (.slice iv.elementType)⟩]

theorem KirMemoryRegion.Matches.mono {r : KirMemoryRegion} {is is' : List KirInstruction}
    (h : r.Matches is) (his : is ⊆ is') : r.Matches is' where
  parent p hp := by
    obtain ⟨x, hx, i, hi, h⟩ := h.parent p hp
    exact ⟨x, hx, i, his hi, h⟩
  interval iv hiv := by
    obtain ⟨x, s, hx, i, hi, h⟩ := h.interval iv hiv
    exact ⟨x, s, hx, i, his hi, h⟩

/-- From `b` to `b'` the given instructions and regions were added, with fresh identities. -/
structure Emits (b b' : InstructionBuilder) (is : List KirInstruction)
    (made : List KirMemoryRegion) : Prop where
  instructions : b'.instructions = b.instructions ++ is
  regions : b'.regions = b.regions ++ made
  value : b.ids.value ≤ b'.ids.value
  region : b'.ids.region = b.ids.region + made.length
  ascending : (is.flatMap (·.defs)).Pairwise (· < ·)
  within : ∀ v ∈ is.flatMap (·.defs), b.ids.value ≤ v ∧ v < b'.ids.value
  numbered : made.map (·.id) = List.range' b.ids.region made.length
  matched : ∀ r ∈ made, r.Matches is

def Emitting (b b' : InstructionBuilder) : Prop := ∃ is made, Emits b b' is made

section Operations

open InstructionBuilder

variable {b b' b'' : InstructionBuilder}

theorem Emits.refl (b : InstructionBuilder) : Emits b b [] [] where
  instructions := by simp
  regions := by simp
  value := le_rfl
  region := rfl
  ascending := by simp
  within := by simp
  numbered := rfl
  matched := by simp

theorem Emits.trans {is is' : List KirInstruction} {made made' : List KirMemoryRegion}
    (h : Emits b b' is made) (h' : Emits b' b'' is' made') :
    Emits b b'' (is ++ is') (made ++ made') where
  instructions := by rw [h'.instructions, h.instructions, List.append_assoc]
  regions := by rw [h'.regions, h.regions, List.append_assoc]
  value := h.value.trans h'.value
  region := by rw [h'.region, h.region, List.length_append, Nat.add_assoc]
  ascending := by
    rw [List.flatMap_append]
    refine List.pairwise_append.mpr ⟨h.ascending, h'.ascending, ?_⟩
    intro v hv w hw
    exact (h.within v hv).2.trans_le (h'.within w hw).1
  within := by
    intro v hv
    rw [List.flatMap_append] at hv
    rcases List.mem_append.mp hv with hv | hv
    · exact ⟨(h.within v hv).1, (h.within v hv).2.trans_le h'.value⟩
    · exact ⟨h.value.trans (h'.within v hv).1, (h'.within v hv).2⟩
  numbered := by
    rw [List.map_append, h.numbered, h'.numbered, h.region, List.length_append,
      List.range'_append_1]
  matched := by
    intro r hr
    rcases List.mem_append.mp hr with hr | hr
    · exact (h.matched r hr).mono (List.subset_append_left _ _)
    · exact (h'.matched r hr).mono (List.subset_append_right _ _)

/-- What was emitted does not depend on what stood before it. -/
theorem Emits.rebase {is : List KirInstruction} {made : List KirMemoryRegion}
    (h : Emits b b' is made) (before : List KirInstruction) :
    Emits { b with instructions := before } { b' with instructions := before ++ is } is made :=
  ⟨rfl, h.regions, h.value, h.region, h.ascending, h.within, h.numbered, h.matched⟩

theorem Emitting.refl (b : InstructionBuilder) : Emitting b b := ⟨[], [], .refl b⟩

theorem emitting_none (hinstructions : b'.instructions = b.instructions)
    (hregions : b'.regions = b.regions) (hvalue : b'.ids.value = b.ids.value)
    (hregion : b'.ids.region = b.ids.region) : Emitting b b' :=
  ⟨[], [], by simpa using hinstructions, by simpa using hregions, hvalue.ge, hregion, by simp,
    by simp, rfl, by simp⟩

theorem Emitting.trans (h : Emitting b b') (h' : Emitting b' b'') : Emitting b b'' := by
  obtain ⟨is, made, h⟩ := h
  obtain ⟨is', made', h'⟩ := h'
  exact ⟨_, _, h.trans h'⟩

/-- One instruction with the next `n` values as its results. -/
theorem Emits.single {i : KirInstruction} {n : Nat}
    (hinstructions : b'.instructions = b.instructions ++ [i]) (hregions : b'.regions = b.regions)
    (hvalue : b'.ids.value = b.ids.value + n) (hregion : b'.ids.region = b.ids.region)
    (hdefs : i.defs = List.range' b.ids.value n) : Emits b b' [i] [] where
  instructions := hinstructions
  regions := by simpa using hregions
  value := hvalue ▸ Nat.le_add_right _ _
  region := hregion
  ascending := by simpa [hdefs] using List.pairwise_lt_range'
  within := by
    intro v hv
    have hv' : v ∈ List.range' b.ids.value n := by simpa [hdefs] using hv
    rw [List.mem_range'_1] at hv'
    exact ⟨hv'.1, hvalue ▸ hv'.2⟩
  numbered := rfl
  matched := by simp

theorem emitting_single (n : Nat) {i : KirInstruction}
    (hinstructions : b'.instructions = b.instructions ++ [i]) (hregions : b'.regions = b.regions)
    (hvalue : b'.ids.value = b.ids.value + n) (hregion : b'.ids.region = b.ids.region)
    (hdefs : i.defs = List.range' b.ids.value n) : Emitting b b' :=
  ⟨_, _, .single hinstructions hregions hvalue hregion hdefs⟩

theorem define_emitting (b : InstructionBuilder) (target : MirValue) (kind : KirInstructionKind) :
    Emitting b (b.defineInstructionResult target kind) :=
  emitting_single 1 rfl rfl rfl rfl rfl

theorem guard_emitting (b : InstructionBuilder) (condition : ValueId) (failure : KirFailureKind)
    (effect : Option KirOrderedEffect) :
    Emitting b ((b.push [] (.guard condition failure) none effect).takeEffect) :=
  emitting_single 0 rfl rfl rfl rfl rfl

theorem pushCheck_emitting (b : InstructionBuilder) (kind : KirCheckConditionKind)
    (args : List ValueId) (failure : KirFailureKind) :
    Emitting b (b.pushCheck kind args failure) := by
  have hcheck : Emitting b
      (b.takeValue.push [⟨b.ids.value, .scalar .bool⟩] (.checkCondition kind args) none none) :=
    emitting_single 1 rfl rfl rfl rfl rfl
  exact hcheck.trans (guard_emitting _ _ _ _)

theorem defineChecked_emitting (b : InstructionBuilder) (target : MirValue)
    (kind : KirInstructionKind) : Emitting b (b.defineCheckedResult target kind) := by
  have hdefine : Emitting b ((b.takeValue.takeValue.setValue (valueName target) b.ids.value).push
      [⟨b.ids.value, .scalar target.typeNode⟩, ⟨b.ids.value + 1, .scalar .bool⟩] kind none none) :=
    emitting_single 2 rfl rfl rfl rfl rfl
  exact hdefine.trans (guard_emitting _ _ _ _)

theorem buildPlace_emitting {config : KirBuildConfig} {base : MemoryRegionId} {place : MirPlace}
    {p : KirPlace} (h : buildPlace config base place b = .ok (p, b')) : Emitting b b' := by
  induction place generalizing p b' with
  | param | «local» =>
      simp only [buildPlace] at h
      split at h
      · cases h
        exact .refl b
      · cases h
  | deref =>
      obtain ⟨v, _, h⟩ := Lib.bind_eq_ok.mp h
      cases Lib.pure_eq_ok.mp h
      exact .refl b
  | index inner i type ih =>
      obtain ⟨⟨q, c⟩, hq, h⟩ := Lib.bind_eq_ok.mp h
      obtain ⟨v, _, h⟩ := Lib.bind_eq_ok.mp h
      cases Lib.pure_eq_ok.mp h
      exact ih hq
  | sliceIndex =>
      obtain ⟨v, _, h⟩ := Lib.bind_eq_ok.mp h
      obtain ⟨w, _, h⟩ := Lib.bind_eq_ok.mp h
      cases Lib.pure_eq_ok.mp h
      split
      · exact pushCheck_emitting b _ _ _
      · exact .refl b
  | field inner name type ih =>
      obtain ⟨⟨q, c⟩, hq, h⟩ := Lib.bind_eq_ok.mp h
      cases Lib.pure_eq_ok.mp h
      exact ih hq

/-- A slice instruction and the region it originates. -/
theorem slice_emitting {i : KirInstruction} {r : KirMemoryRegion}
    (hinstructions : b'.instructions = b.instructions ++ [i])
    (hregions : b'.regions = b.regions ++ [r]) (hvalue : b'.ids.value = b.ids.value + 1)
    (hregion : b'.ids.region = b.ids.region + 1) (hdefs : i.defs = [b.ids.value])
    (hid : r.id = b.ids.region) (hmatch : r.Matches [i]) : Emitting b b' := by
  refine ⟨[i], [r], ⟨hinstructions, hregions, hvalue ▸ Nat.le_succ _, hregion, ?_, ?_, ?_, ?_⟩⟩
  · simp [hdefs]
  · intro v hv
    obtain rfl : v = b.ids.value := by simpa [hdefs] using hv
    exact ⟨le_rfl, hvalue ▸ Nat.lt_succ_self _⟩
  · simp [hid]
  · simpa using hmatch

theorem buildSubslice_emitting {config : KirBuildConfig} {base : MemoryRegionId}
    {target slice start stop : MirValue}
    (h : b.buildSubslice config base target slice start stop = .ok b') : Emitting b b' := by
  obtain ⟨v, _, h⟩ := Lib.bind_eq_ok.mp h
  obtain ⟨lo, _, h⟩ := Lib.bind_eq_ok.mp h
  obtain ⟨hi, _, h⟩ := Lib.bind_eq_ok.mp h
  dsimp only at h
  split at h
  case h_2 => cases h
  case h_1 element htype =>
    cases Lib.pure_eq_ok.mp h
    have hcut : ∀ c : InstructionBuilder, Emitting c
        (((c.defineInstructionResult target (.subslice v lo hi)).pushRegion
          (.subslice c.ids.value) (c.valueRegions (valueName slice)) base
          (some ⟨lo, hi, element⟩)).setRegion (valueName target) (some c.ids.region)) := by
      intro c
      refine slice_emitting rfl rfl rfl rfl rfl rfl ⟨?_, ?_⟩
      · exact fun p _ ↦ ⟨_, rfl, _, List.mem_singleton_self _, rfl, .inr ⟨v, lo, hi, rfl⟩⟩
      · intro iv hiv
        cases hiv
        refine ⟨_, v, rfl, _, List.mem_singleton_self _, rfl, ?_⟩
        rw [htype]
    split
    · exact (pushCheck_emitting b _ _ _).trans (hcut _)
    · exact hcut b

theorem build_emitting {config : KirBuildConfig} {base : MemoryRegionId} {i : MirInstruction}
    (h : b.build config base i = .ok b') : Emitting b b' := by
  cases i with
  | constInt target | constFloat target | constBool target =>
      cases Lib.pure_eq_ok.mp h
      exact define_emitting b _ _
  | move target value =>
      obtain ⟨v, _, h⟩ := Lib.bind_eq_ok.mp h
      cases target with
      | param | «local» =>
          cases Lib.pure_eq_ok.mp h
          exact emitting_none rfl rfl rfl rfl
      | temp | constInt | constFloat | constBool =>
          cases Lib.pure_eq_ok.mp h
          exact emitting_single 1 rfl rfl rfl rfl rfl
  | unary target op operand =>
      obtain ⟨v, _, h⟩ := Lib.bind_eq_ok.mp h
      dsimp only at h
      split at h
      · cases Lib.pure_eq_ok.mp h
        exact defineChecked_emitting b _ _
      · cases Lib.pure_eq_ok.mp h
        exact define_emitting b _ _
  | binary target op left right =>
      obtain ⟨l, _, h⟩ := Lib.bind_eq_ok.mp h
      obtain ⟨r, _, h⟩ := Lib.bind_eq_ok.mp h
      dsimp only at h
      split at h
      case isFalse =>
        cases Lib.pure_eq_ok.mp h
        exact define_emitting b _ _
      case isTrue =>
        cases op with
        | add | sub | mul =>
            cases Lib.pure_eq_ok.mp h
            exact defineChecked_emitting b _ _
        | div | mod =>
            cases Lib.pure_eq_ok.mp h
            refine (pushCheck_emitting b .divisionByZero [r] .divisionByZero).trans ?_
            split
            · exact (pushCheck_emitting _ _ _ _).trans (define_emitting _ _ _)
            · exact define_emitting _ _ _
  | compare target op left right =>
      obtain ⟨l, _, h⟩ := Lib.bind_eq_ok.mp h
      obtain ⟨r, _, h⟩ := Lib.bind_eq_ok.mp h
      cases Lib.pure_eq_ok.mp h
      exact define_emitting b _ _
  | cast target op value | sliceLen target value =>
      obtain ⟨v, _, h⟩ := Lib.bind_eq_ok.mp h
      cases Lib.pure_eq_ok.mp h
      exact define_emitting b _ _
  | sliceData target value =>
      obtain ⟨v, _, h⟩ := Lib.bind_eq_ok.mp h
      cases Lib.pure_eq_ok.mp h
      exact emitting_single 1 rfl rfl rfl rfl rfl
  | address target place =>
      obtain ⟨⟨p, c⟩, hp, h⟩ := Lib.bind_eq_ok.mp h
      cases Lib.pure_eq_ok.mp h
      exact (buildPlace_emitting hp).trans (emitting_single 1 rfl rfl rfl rfl rfl)
  | load target place =>
      obtain ⟨⟨p, c⟩, hp, h⟩ := Lib.bind_eq_ok.mp h
      cases Lib.pure_eq_ok.mp h
      exact (buildPlace_emitting hp).trans (emitting_single 1 rfl rfl rfl rfl rfl)
  | store place value =>
      obtain ⟨⟨p, c⟩, hp, h⟩ := Lib.bind_eq_ok.mp h
      obtain ⟨v, _, h⟩ := Lib.bind_eq_ok.mp h
      cases Lib.pure_eq_ok.mp h
      exact (buildPlace_emitting hp).trans (emitting_single 0 rfl rfl rfl rfl rfl)
  | makeSlice target data len =>
      obtain ⟨d, _, h⟩ := Lib.bind_eq_ok.mp h
      obtain ⟨n, _, h⟩ := Lib.bind_eq_ok.mp h
      cases Lib.pure_eq_ok.mp h
      refine slice_emitting rfl rfl rfl rfl rfl rfl ⟨?_, by simp⟩
      exact fun p _ ↦ ⟨_, rfl, _, List.mem_singleton_self _, rfl, .inl ⟨d, n, rfl⟩⟩
  | subslice => exact buildSubslice_emitting h
  | call target name args =>
      obtain ⟨vs, _, h⟩ := Lib.bind_eq_ok.mp h
      cases target with
      | none =>
          cases Lib.pure_eq_ok.mp h
          exact emitting_single 0 rfl rfl rfl rfl rfl
      | some target =>
          cases Lib.pure_eq_ok.mp h
          exact emitting_single 1 rfl rfl rfl rfl rfl
  | runtimeCall intrinsic args =>
      obtain ⟨vs, _, h⟩ := Lib.bind_eq_ok.mp h
      cases Lib.pure_eq_ok.mp h
      exact emitting_single 0 rfl rfl rfl rfl rfl

theorem buildInstructions_emitting {config : KirBuildConfig} {base : MemoryRegionId}
    {is : List MirInstruction} (h : buildInstructions config base is b = .ok b') :
    Emitting b b' := by
  induction is generalizing b with
  | nil =>
      cases h
      exact .refl _
  | cons i rest ih =>
      obtain ⟨c, hc, h⟩ := Lib.bind_eq_ok.mp h
      exact (build_emitting hc).trans (ih h)

end Operations

section Blocks

open InstructionBuilder

/-- A block continues from the builder `plan.openBlock k b`. -/
theorem buildBlock_emits {plan : BlockPlan} {k : Nat} {mir : MirBlock} {b b' : InstructionBuilder}
    {block : KirBlock} (h : plan.buildBlock k mir b = .ok (block, b')) :
    block.params = plan.params k ∧ ∃ is made,
      Emits { b with instructions := [] } { b' with instructions := is } is made ∧
      block.instructions = (if k = 0 then b.instructions else []) ++ is := by
  obtain ⟨c, hc, h⟩ := Lib.bind_eq_ok.mp h
  obtain ⟨⟨t, d⟩, hd, h⟩ := Lib.bind_eq_ok.mp h
  dsimp only at h
  split at h
  case h_2 => cases h
  case h_1 id _ =>
    cases Lib.pure_eq_ok.mp h
    obtain ⟨is, made, hemits⟩ := buildInstructions_emitting hc
    have hclosed : b'.ids = c.ids ∧ b'.regions = c.regions := by
      cases hterm : mir.terminator with
      | «return» value =>
          rw [hterm] at hd
          obtain ⟨v, _, hd⟩ := Lib.bind_eq_ok.mp hd
          cases Lib.pure_eq_ok.mp hd
          exact ⟨rfl, rfl⟩
      | jump label =>
          rw [hterm] at hd
          obtain ⟨edge, _, hd⟩ := Lib.bind_eq_ok.mp hd
          cases Lib.pure_eq_ok.mp hd
          exact ⟨rfl, rfl⟩
      | branch condition thenLabel elseLabel =>
          rw [hterm] at hd
          obtain ⟨_, _, hd⟩ := Lib.bind_eq_ok.mp hd
          obtain ⟨_, _, hd⟩ := Lib.bind_eq_ok.mp hd
          obtain ⟨_, _, hd⟩ := Lib.bind_eq_ok.mp hd
          cases Lib.pure_eq_ok.mp hd
          exact ⟨rfl, rfl⟩
    have hopen : (plan.openBlock k b).ids = b.ids ∧ (plan.openBlock k b).regions = b.regions ∧
        (plan.openBlock k b).instructions = if k = 0 then b.instructions else [] := by
      unfold BlockPlan.openBlock
      split <;> exact ⟨rfl, rfl, rfl⟩
    obtain ⟨hids, hregions, hinstructions⟩ := hopen
    refine ⟨rfl, is, made, ⟨rfl, ?_, ?_, ?_, hemits.ascending, ?_, ?_, hemits.matched⟩, ?_⟩
    · exact hclosed.2.trans (hregions ▸ hemits.regions)
    · exact (hids ▸ hemits.value).trans_eq (congrArg KirIds.value hclosed.1).symm
    · exact (congrArg KirIds.region hclosed.1).trans (hids ▸ hemits.region)
    · intro v hv
      obtain ⟨hlo, hhi⟩ := hemits.within v hv
      exact ⟨hids ▸ hlo, hhi.trans_eq (congrArg KirIds.value hclosed.1).symm⟩
    · exact hids ▸ hemits.numbered
    · exact hinstructions ▸ hemits.instructions

theorem buildBlocks_emits {plan : BlockPlan} {mirs : List MirBlock} {k : Nat}
    {b b' : InstructionBuilder} {blocks : List KirBlock}
    (h : plan.buildBlocks k mirs b = .ok (blocks, b')) :
    (∀ (j : Nat) (block : KirBlock), blocks[j]? = some block →
      block.params = plan.params (k + j)) ∧ blocks.length = mirs.length ∧
    ∃ is made, Emits { b with instructions := [] } { b' with instructions := is } is made ∧
      blocks.flatMap (·.instructions) =
        (if k = 0 ∧ mirs ≠ [] then b.instructions else []) ++ is := by
  induction mirs generalizing k b blocks with
  | nil =>
      cases h
      exact ⟨by simp, rfl, [], [], .refl _, by simp⟩
  | cons mir mirs ih =>
      obtain ⟨⟨block, c⟩, hc, h⟩ := Lib.bind_eq_ok.mp h
      obtain ⟨⟨rest, d⟩, hd, h⟩ := Lib.bind_eq_ok.mp h
      cases Lib.pure_eq_ok.mp h
      obtain ⟨hparams, is, made, hemits, hinstructions⟩ := buildBlock_emits hc
      obtain ⟨hparams', hlength, is', made', hemits', hinstructions'⟩ := ih hd
      refine ⟨?_, by simp [hlength], is ++ is', made ++ made', ?_, ?_⟩
      · intro j block' hblock'
        cases j with
        | zero =>
            obtain rfl : block = block' := by simpa using hblock'
            exact hparams
        | succ j =>
            have hj := hparams' j block' (by simpa using hblock')
            rwa [Nat.add_assoc, Nat.add_comm 1 j] at hj
      · exact hemits.trans (hemits'.rebase is)
      · simp only [List.flatMap_cons, hinstructions, hinstructions']
        simp

end Blocks

section Entry

open InstructionBuilder

variable {b : InstructionBuilder}

theorem bindParam_emits (b : InstructionBuilder) (base : MemoryRegionId) (p : MirParam) :
    ∃ made, Emits b (b.bindParam base p) [] made ∧
      (b.bindParam base p).ids.value = b.ids.value + 1 := by
  unfold bindParam
  split
  · refine ⟨[⟨b.ids.region, .parameter b.ids.value, none, base, none⟩], ?_, rfl⟩
    exact ⟨(List.append_nil _).symm, rfl, Nat.le_succ _, rfl, by simp, by simp, rfl,
      by simpa using ⟨by simp, by simp⟩⟩
  · exact ⟨[], ⟨(List.append_nil _).symm, (List.append_nil _).symm, Nat.le_succ _, rfl, by simp,
      by simp, rfl, by simp⟩, rfl⟩

theorem bindParams_emits (b : InstructionBuilder) (base : MemoryRegionId)
    (params : List MirParam) :
    ∃ made, Emits b (params.foldl (·.bindParam base) b) [] made ∧
      (params.foldl (·.bindParam base) b).ids.value = b.ids.value + params.length := by
  induction params generalizing b with
  | nil => exact ⟨[], .refl _, rfl⟩
  | cons p params ih =>
      obtain ⟨made, hemits, hvalue⟩ := bindParam_emits b base p
      obtain ⟨made', hemits', hvalue'⟩ := ih (b.bindParam base p)
      refine ⟨made ++ made', hemits.trans hemits', ?_⟩
      rw [List.foldl_cons, hvalue', hvalue, List.length_cons, Nat.add_assoc, Nat.add_comm 1]

theorem bindLocals_emitting (b : InstructionBuilder) (locals : List MirLocal) :
    Emitting b (locals.foldl bindLocal b) := by
  induction locals generalizing b with
  | nil => exact .refl b
  | cons l locals ih =>
      have hl : Emitting b (b.bindLocal l) := emitting_single 1 rfl rfl rfl rfl rfl
      exact hl.trans (ih _)

theorem bindConstants_emitting (b : InstructionBuilder) (constants : List MirValue) :
    Emitting b (constants.foldl bindConstant b) := by
  induction constants generalizing b with
  | nil => exact .refl b
  | cons c constants ih => exact (define_emitting b c _).trans (ih _)

/-- The entry prefix defines values above the parameters. -/
theorem entryBuilder_emits (f : MirFunction) (ids : KirIds) :
    ∃ b is made made', Emits (openFunction ids) b [] made ∧
      b.ids.value = ids.value + f.params.length ∧ Emits b (entryBuilder f ids) is made' := by
  obtain ⟨made, hparams, hvalue⟩ := bindParams_emits (openFunction ids) ids.region f.params
  obtain ⟨is, made', hprefix⟩ := (bindLocals_emitting _ f.locals).trans
    (bindConstants_emitting _ (inlineConstants f))
  exact ⟨_, is, made, made', hparams, hvalue, hprefix⟩

end Entry

/-- What a built function defines, it defines once; its regions are numbered and match the
instructions they were made for. -/
structure BuiltSsa (g : KirFunction) : Prop where
  nodup : g.valueIds.Nodup
  regionIds : (g.regions.map (·.id)).Nodup
  matched : ∀ r ∈ g.regions, r.Matches g.instructions

/-- The block parameters of a function are numbered from `first` on, block by block. -/
theorem blockParams_ascending {plan : BlockPlan} {blocks : List KirBlock}
    (h : ∀ (j : Nat) (block : KirBlock), blocks[j]? = some block → block.params = plan.params j) :
    (blocks.flatMap fun b ↦ b.params.map (·.value)) =
      List.range' plan.firstParam ((blocks.length - 1) * plan.slots.length) := by
  have hblock : ∀ k, (plan.params k).map (·.value) =
      if k = 0 then []
      else List.range' (plan.firstParam + (k - 1) * plan.slots.length) plan.slots.length := by
    intro k
    unfold BlockPlan.params
    split
    · rfl
    · refine List.ext_getElem (by simp [slotParams]) ?_
      intro i _ _
      simp [slotParams]
  induction blocks using List.reverseRecOn with
  | nil => simp
  | append_singleton blocks block ih =>
      have hlast := h blocks.length block (by simp)
      have hinit := ih fun j b hb ↦ h j b (by
        rw [List.getElem?_append_left (List.getElem?_eq_some_iff.mp hb).1]
        exact hb)
      rw [List.flatMap_append, hinit, List.flatMap_singleton, hlast, hblock]
      split
      · rename_i hzero
        simp [hzero]
      · rename_i hpos
        rw [List.range'_append_1, List.length_append, List.length_singleton, Nat.add_sub_cancel,
          ← Nat.succ_mul, Nat.succ_eq_add_one, Nat.sub_add_cancel (Nat.pos_of_ne_zero hpos)]

/-- How a function was built: entry, then blocks. -/
structure BuildTrace (f : MirFunction) (ids : KirIds) (g : KirFunction)
    (b p : InstructionBuilder) (pre is : List KirInstruction)
    (made₀ made₁ made₂ : List KirMemoryRegion) : Prop where
  params : g.params.map (·.value) = List.range' ids.value f.params.length
  openParams : Emits (openFunction ids) p [] made₀
  paramValue : p.ids.value = ids.value + f.params.length
  entry : Emits p (entryBuilder f ids) pre made₁
  blocks : Emits { reserveBlocks f (entryBuilder f ids) with instructions := [] }
    { b with instructions := is } is made₂
  blockParams : (g.blocks.flatMap fun b ↦ b.params.map (·.value)) =
    List.range' (entryBuilder f ids).ids.value ((f.blocks.length - 1) * f.slots.length)
  instructions : g.blocks.flatMap (·.instructions) = pre ++ is
  regions : g.regions = b.regions

theorem buildFunction_trace {f : MirFunction} {config : KirBuildConfig} {ids ids' : KirIds}
    {g : KirFunction} (h : buildFunction f config ids = .ok (g, ids')) :
    ∃ b p pre is made₀ made₁ made₂, BuildTrace f ids g b p pre is made₀ made₁ made₂ := by
  unfold buildFunction at h
  split at h
  case isTrue => cases h
  case isFalse hblocks =>
  obtain ⟨⟨blocks, b⟩, hbuild, h⟩ := Lib.bind_eq_ok.mp h
  cases Lib.pure_eq_ok.mp h
  obtain ⟨p, pre, made₀, made₁, hparams, hvalue, hentry⟩ := entryBuilder_emits f ids
  obtain ⟨hblockParams, hlength, is, made₂, hemits, hflat⟩ := buildBlocks_emits hbuild
  have hascending := blockParams_ascending fun j block hj ↦ by
    simpa only [Nat.zero_add] using hblockParams j block hj
  have hpre : (entryBuilder f ids).instructions = pre := by
    rw [hentry.instructions, hparams.instructions]
    rfl
  refine ⟨b, p, pre, is, made₀, made₁, made₂, ?_, hparams, hvalue, hentry, hemits, ?_, ?_, rfl⟩
  · exact List.ext_getElem (by simp) (by simp)
  · rw [hascending, hlength]
    rfl
  · rw [hflat, if_pos ⟨rfl, hblocks⟩]
    exact congrArg (· ++ is) hpre

namespace BuildTrace

variable {f : MirFunction} {ids : KirIds} {g : KirFunction} {b p : InstructionBuilder}
variable {pre is : List KirInstruction} {made₀ made₁ made₂ : List KirMemoryRegion}

theorem nodup (h : BuildTrace f ids g b p pre is made₀ made₁ made₂) : g.valueIds.Nodup := by
  have hbody : (g.blocks.flatMap fun b ↦
      b.params.map (·.value) ++ b.instructions.flatMap (·.defs)).Perm
      (List.range' (entryBuilder f ids).ids.value ((f.blocks.length - 1) * f.slots.length) ++
        (pre ++ is).flatMap (·.defs)) := by
    refine (List.flatMap_append_perm g.blocks _ _).symm.trans (.of_eq ?_)
    rw [h.blockParams, ← h.instructions, List.flatMap_assoc]
  refine (List.Perm.append_left _ hbody).nodup_iff.mpr ?_
  rw [h.params, List.flatMap_append]
  have hlt : ∀ {l : List ValueId}, l.Pairwise (· < ·) → l.Nodup := fun h ↦ h.imp Nat.ne_of_lt
  -- parameters, entry prefix, block parameters and block instructions follow one another
  have hlate : ∀ w ∈ is.flatMap (·.defs), (entryBuilder f ids).ids.value +
      (f.blocks.length - 1) * f.slots.length ≤ w := fun w hw ↦ (h.blocks.within w hw).1
  refine List.nodup_append.mpr ⟨List.nodup_range', List.nodup_append.mpr ⟨List.nodup_range',
    List.nodup_append.mpr ⟨hlt h.entry.ascending, hlt h.blocks.ascending, ?_⟩, ?_⟩, ?_⟩
  · intro v hv w hw
    exact Nat.ne_of_lt
      ((h.entry.within v hv).2.trans_le ((Nat.le_add_right _ _).trans (hlate w hw)))
  · intro v hv w hw
    rw [List.mem_range'_1] at hv
    rcases List.mem_append.mp hw with hw | hw
    · exact (Nat.ne_of_lt ((h.entry.within w hw).2.trans_le hv.1)).symm
    · exact Nat.ne_of_lt (hv.2.trans_le (hlate w hw))
  · intro v hv w hw
    rw [List.mem_range'_1, ← h.paramValue] at hv
    rcases List.mem_append.mp hw with hw | hw
    · rw [List.mem_range'_1] at hw
      exact Nat.ne_of_lt (hv.2.trans_le (h.entry.value.trans hw.1))
    · rcases List.mem_append.mp hw with hw | hw
      · exact Nat.ne_of_lt (hv.2.trans_le (h.entry.within w hw).1)
      · exact Nat.ne_of_lt (hv.2.trans_le
          (h.entry.value.trans ((Nat.le_add_right _ _).trans (hlate w hw))))

theorem regions_eq (h : BuildTrace f ids g b p pre is made₀ made₁ made₂) : g.regions =
    ⟨ids.region, .conservative, none, ids.region, none⟩ :: (made₀ ++ made₁ ++ made₂) := by
  have hblocks : b.regions = (entryBuilder f ids).regions ++ made₂ := h.blocks.regions
  rw [h.regions, hblocks, h.entry.regions, h.openParams.regions]
  simp [openFunction]

theorem regionIds (h : BuildTrace f ids g b p pre is made₀ made₁ made₂) :
    (g.regions.map (·.id)).Nodup := by
  have hparams : p.ids.region = ids.region + 1 + made₀.length := h.openParams.region
  have hentry : (entryBuilder f ids).ids.region = ids.region + 1 + (made₀.length + made₁.length) := by
    rw [h.entry.region, hparams, Nat.add_assoc]
  have hmade₀ : made₀.map (·.id) = List.range' (ids.region + 1) made₀.length :=
    h.openParams.numbered
  have hmade₂ : made₂.map (·.id) =
      List.range' (entryBuilder f ids).ids.region made₂.length := h.blocks.numbered
  rw [h.regions_eq, List.map_cons, List.map_append, List.map_append, hmade₀, h.entry.numbered,
    hmade₂, hparams, List.range'_append_1, hentry, List.range'_append_1, ← List.range'_succ]
  exact List.nodup_range'

theorem matched (h : BuildTrace f ids g b p pre is made₀ made₁ made₂) {r : KirMemoryRegion}
    (hr : r ∈ g.regions) : r.Matches g.instructions := by
  have hinstructions : ∀ i ∈ pre ++ is, i ∈ g.instructions := by
    intro i hi
    rw [KirFunction.instructions, h.instructions]
    exact hi
  rw [h.regions_eq] at hr
  rcases List.mem_cons.mp hr with rfl | hr
  · exact ⟨by simp, by simp⟩
  · rcases List.mem_append.mp hr with hr | hr
    · rcases List.mem_append.mp hr with hr | hr
      · exact (h.openParams.matched r hr).mono (by simp)
      · exact (h.entry.matched r hr).mono fun i hi ↦ hinstructions i (List.mem_append_left _ hi)
    · exact (h.blocks.matched r hr).mono fun i hi ↦ hinstructions i (List.mem_append_right _ hi)

end BuildTrace

theorem buildFunction_ssa {f : MirFunction} {config : KirBuildConfig} {ids ids' : KirIds}
    {g : KirFunction} (h : buildFunction f config ids = .ok (g, ids')) : BuiltSsa g := by
  obtain ⟨_, _, _, _, _, _, _, htrace⟩ := buildFunction_trace h
  exact ⟨htrace.nodup, htrace.regionIds, fun _ hr ↦ htrace.matched hr⟩

end CalcKernel
