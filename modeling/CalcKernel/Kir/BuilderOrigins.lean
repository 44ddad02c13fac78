import CalcKernel.Kir.Builder
import CalcKernel.Kir.Provenance
import CalcKernel.Lib.Assoc

/-!
# Region provenance of built KIR

The origins that names have in layout order, and the proof that construction labels
every SSA value with the region of the origin its name had when the value was
made.  Whether the label is right at a block entered along some edge depends on
the edge: it is when the slots passed along it come from the assignments that are
last in layout order.
-/

namespace CalcKernel

/-! ## Origins in layout order -/

/-- Origins are numbered as they appear: pointer and slice parameters first, then raw slices and
subslices in layout order.  The number of a name is that of its last assignment in layout order,
and `0` where no origin is known. -/
structure OriginScan where
  next : Nat
  origin : MirValueName → Nat

namespace OriginScan

variable (s : OriginScan)

def assign (name : MirValueName) (o : Nat) : OriginScan :=
  { s with origin := Function.update s.origin name o }

def fresh (name : MirValueName) : OriginScan :=
  { next := s.next + 1, origin := Function.update s.origin name s.next }

def param (p : MirParam) : OriginScan :=
  if isMemoryOriginType p.typeNode then s.fresh (.param p.name) else s

def start (f : MirFunction) : OriginScan := f.params.foldl param ⟨1, fun _ ↦ 0⟩

def place : MirPlace → Nat
  | .param name _ => s.origin (.param name)
  | .local name _ => s.origin (.local name)
  | .deref v _ | .sliceIndex v _ _ => s.origin (valueName v)
  | .index base _ _ | .field base _ _ => place base

def step : MirInstruction → OriginScan
  | .move target value => s.assign (valueName target) (s.origin (valueName value))
  | .sliceData target slice => s.assign (valueName target) (s.origin (valueName slice))
  | .address target p => s.assign (valueName target) (s.place p)
  | .makeSlice target _ _ | .subslice target _ _ _ => s.fresh (valueName target)
  | .constInt target _ | .constFloat target _ | .constBool target _ | .unary target _ _
  | .compare target _ _ _ | .cast target _ _ | .binary target _ _ _ | .load target _
  | .sliceLen target _ | .call (some target) _ _ => s.assign (valueName target) 0
  | .store _ _ | .call none _ _ | .runtimeCall _ _ => s

def run (is : List MirInstruction) : OriginScan := is.foldl step s

end OriginScan

/-- The scan at the head of block `k`. -/
def MirFunction.layoutScan (f : MirFunction) (k : Nat) : OriginScan :=
  (f.blocks.take k).foldl (fun s b ↦ s.run b.instructions) (.start f)

/-- The name that an instruction without an origin of its own assigns. -/
def MirInstruction.plainTarget : MirInstruction → Option MirValue
  | .constInt target _ | .constFloat target _ | .constBool target _ | .unary target _ _
  | .compare target _ _ _ | .cast target _ _ | .binary target _ _ _ | .load target _
  | .sliceLen target _ => some target
  | .call target _ _ => target
  | _ => none

def MirInstruction.place? : MirInstruction → Option MirPlace
  | .address _ p | .load _ p | .store p _ => some p
  | _ => none

def MirPlace.isName : MirPlace → Bool
  | .param _ _ | .local _ _ => true
  | _ => false

namespace OriginScan

variable (s : OriginScan)

/-- An index place goes through a pointer that is held by a name, or is not known to have an
origin. -/
def PlaceTracked : MirPlace → Prop
  | .param _ _ | .local _ _ | .deref _ _ | .sliceIndex _ _ _ => True
  | .field base _ _ => PlaceTracked base
  | .index base _ _ => PlaceTracked base ∧ (base.isName = false → s.place base = 0)

/-- A result without origin is not assigned to a name that has one. -/
def StepTracked (i : MirInstruction) : Prop :=
  (∀ target ∈ i.plainTarget, s.origin (valueName target) = 0) ∧ ∀ p ∈ i.place?, s.PlaceTracked p

def Tracked : OriginScan → List MirInstruction → Prop
  | _, [] => True
  | s, i :: rest => s.StepTracked i ∧ (s.step i).Tracked rest

def decidePlaceTracked : (p : MirPlace) → Decidable (s.PlaceTracked p)
  | .param _ _ | .local _ _ | .deref _ _ | .sliceIndex _ _ _ => .isTrue trivial
  | .field base _ _ => decidePlaceTracked base
  | .index base _ _ => @instDecidableAnd _ _ (decidePlaceTracked base) inferInstance

instance (p : MirPlace) : Decidable (s.PlaceTracked p) := s.decidePlaceTracked p

instance (i : MirInstruction) : Decidable (s.StepTracked i) := inferInstanceAs (Decidable (_ ∧ _))

def decideTracked : (s : OriginScan) → (is : List MirInstruction) → Decidable (s.Tracked is)
  | _, [] => .isTrue trivial
  | s, i :: rest => @instDecidableAnd _ _ inferInstance (decideTracked (s.step i) rest)

instance (is : List MirInstruction) : Decidable (s.Tracked is) := decideTracked s is

end OriginScan

def MirFunction.OriginsTracked (f : MirFunction) : Prop :=
  ∀ (k : Nat) (h : k < f.blocks.length), (f.layoutScan k).Tracked f.blocks[k].instructions

instance (f : MirFunction) : Decidable f.OriginsTracked :=
  inferInstanceAs (Decidable (∀ (k : Nat) (_ : k < _), _))

/-! ## The labelling of a function under construction -/

def KirPlace.bases : KirPlace → List ValueId
  | .value v _ _ | .deref v _ _ | .sliceIndex v _ _ _ => [v]
  | .index base _ _ _ | .field base _ _ _ => base.bases

/-- The values whose labels an instruction compares. -/
def KirInstruction.labelled (i : KirInstruction) : List ValueId :=
  i.defs ++
    match i.kind with
    | .copy v | .sliceData v => [v]
    | .address p | .load p | .store p _ => p.bases
    | _ => []

/-- A kind whose result is of unknown provenance. -/
def KirInstructionKind.isPlain : KirInstructionKind → Bool
  | .undef _ | .copy _ | .sliceData _ | .makeSlice _ _ | .subslice _ _ _ | .address _ => false
  | _ => true

structure Emitted (base : MemoryRegionId) (L : Labelling) (regions : List KirMemoryRegion)
    (bound : ValueId) (i : KirInstruction) : Prop where
  labelled : i.Labelled base L regions
  places : ∀ p ∈ i.kind.places, p.Labelled base L
  below : ∀ v ∈ i.labelled, v < bound

section Stability

variable {base : MemoryRegionId} {L L' : Labelling} {regions regions' : List KirMemoryRegion}
variable {bound bound' : ValueId}

theorem KirPlace.Labelled.congr {p : KirPlace} (h : p.Labelled base L)
    (hL : ∀ v ∈ p.bases, L' v = L v) : p.Labelled base L' := by
  induction p with
  | value v | deref v | sliceIndex v =>
      have hv : L' v = L v := hL v (by simp [bases])
      simpa only [Labelled, hv] using h
  | index _ _ _ _ ih | field _ _ _ _ ih => exact ⟨ih h.1 hL, h.2⟩

theorem KirPlace.bases_of_mem_places {p q : KirPlace} (h : q ∈ p.places) : q.bases = p.bases := by
  induction p with
  | value | deref | sliceIndex =>
      obtain rfl := List.mem_singleton.mp h
      rfl
  | index _ _ _ _ ih | field _ _ _ _ ih =>
      rcases List.mem_cons.mp h with rfl | h
      · rfl
      · exact ih h

theorem KirInstruction.bases_labelled {i : KirInstruction} {p : KirPlace}
    (h : p ∈ i.kind.places) {v : ValueId} (hv : v ∈ p.bases) : v ∈ i.labelled := by
  refine List.mem_append_right _ ?_
  cases hk : i.kind with
  | address place | load place | store place =>
      rw [hk] at h
      rw [KirPlace.bases_of_mem_places h] at hv
      exact hv
  | _ =>
      rw [hk] at h
      cases h

theorem Originates.mono (hregions : regions ⊆ regions') {r : MemoryRegionId} {v : ValueId}
    (h : Originates regions r v) : Originates regions' r v := by
  obtain ⟨region, hmem, h⟩ := h
  exact ⟨region, hregions hmem, h⟩

theorem KirInstruction.Labelled.congr {i : KirInstruction} (h : i.Labelled base L regions)
    (hL : ∀ v ∈ i.labelled, L' v = L v) (hregions : regions ⊆ regions') :
    i.Labelled base L' regions' := by
  intro x hx
  have hlabel := h x hx
  have hx' : L' x = L x := hL x (List.mem_append_left _ hx)
  cases hk : i.kind with
  | undef => trivial
  | copy v | sliceData v =>
      rw [hk] at hlabel
      have hv : L' v = L v := hL v (List.mem_append_right _ (by simp [hk]))
      exact hx'.trans (hlabel.trans hv.symm)
  | makeSlice | subslice =>
      rw [hk] at hlabel
      exact hx' ▸ hlabel.mono hregions
  | address p =>
      rw [hk] at hlabel
      exact hx'.trans hlabel
  | _ =>
      rw [hk] at hlabel
      exact hx'.trans hlabel

theorem Emitted.mono {i : KirInstruction} (h : Emitted base L regions bound i)
    (hL : ∀ v < bound, L' v = L v) (hregions : regions ⊆ regions') (hbound : bound ≤ bound') :
    Emitted base L' regions' bound' i where
  labelled := h.labelled.congr (fun v hv ↦ hL v (h.below v hv)) hregions
  places p hp := (h.places p hp).congr fun v hv ↦
    hL v (h.below v (KirInstruction.bases_labelled hp hv))
  below v hv := (h.below v hv).trans_le hbound

theorem KirInstruction.labelled_of_isPlain {i : KirInstruction} (h : i.kind.isPlain)
    (hL : ∀ x ∈ i.defs, L x = base) : i.Labelled base L regions := by
  intro x hx
  have := hL x hx
  cases hk : i.kind <;> simp_all [KirInstructionKind.isPlain]

end Stability

/-- The builder agrees with the scan of its names under a labelling of the values made so far. -/
structure Fits (base : MemoryRegionId) (L : Labelling) (s : OriginScan) (b : InstructionBuilder) :
    Prop where
  below : ∀ n v, b.values n = some v → v < b.ids.value
  label : ∀ n v, b.values n = some v → L v = base + s.origin n
  region : ∀ n, b.regionOf base n = base + s.origin n
  fresh : ∀ v, b.ids.value ≤ v → L v = base
  nextRegion : b.ids.region = base + s.next
  numbered : b.regions.map (·.id) = List.range' base s.next
  emitted : ∀ i ∈ b.instructions, Emitted base L b.regions b.ids.value i

namespace Fits

variable {base : MemoryRegionId} {L : Labelling} {s : OriginScan} {b : InstructionBuilder}

/-- Values are taken and labelled. -/
theorem reserve (h : Fits base L s b) {L' : Labelling} {ids : KirIds}
    (hvalue : b.ids.value ≤ ids.value) (hregion : ids.region = b.ids.region)
    (hL : ∀ v < b.ids.value, L' v = L v) (hfresh : ∀ v, ids.value ≤ v → L' v = base) :
    Fits base L' s { b with ids := ids } where
  below n v hv := (h.below n v hv).trans_le hvalue
  label n v hv := (hL v (h.below n v hv)).trans (h.label n v hv)
  region := h.region
  fresh := hfresh
  nextRegion := hregion.trans h.nextRegion
  numbered := h.numbered
  emitted i hi := (h.emitted i hi).mono hL (List.Subset.refl _) hvalue

/-- The next value is taken, to be labelled `r`. -/
theorem takeLabelled (h : Fits base L s b) (r : MemoryRegionId) :
    Fits base (Function.update L b.ids.value r) s b.takeValue := by
  refine h.reserve (Nat.le_succ _) rfl (fun v hv ↦ Function.update_of_ne hv.ne _ _) ?_
  intro v hv
  have hlt : b.ids.value < v := hv
  rw [Function.update_of_ne hlt.ne']
  exact h.fresh v hlt.le

theorem takeValue (h : Fits base L s b) : Fits base L s b.takeValue := by
  have hL : Function.update L b.ids.value base = L := by
    rw [← h.fresh b.ids.value le_rfl, Function.update_eq_self]
  simpa only [hL] using h.takeLabelled base

theorem setValue (h : Fits base L s b) {n : MirValueName} {v : ValueId} (hv : v < b.ids.value)
    (hL : L v = base + s.origin n) : Fits base L s (b.setValue n v) where
  below m w hw := by
    by_cases hm : m = n
    · subst hm
      obtain rfl : v = w := by simpa [InstructionBuilder.setValue] using hw
      exact hv
    · exact h.below m w (by simpa [InstructionBuilder.setValue, hm] using hw)
  label m w hw := by
    by_cases hm : m = n
    · subst hm
      obtain rfl : v = w := by simpa [InstructionBuilder.setValue] using hw
      exact hL
    · exact h.label m w (by simpa [InstructionBuilder.setValue, hm] using hw)
  region := h.region
  fresh := h.fresh
  nextRegion := h.nextRegion
  numbered := h.numbered
  emitted := h.emitted

/-- A name is bound to a value and its region together. -/
theorem rebind (h : Fits base L s b) {n : MirValueName} {v : ValueId} {r : Option MemoryRegionId}
    {o : Nat} (hv : v < b.ids.value) (hL : L v = base + o) (hr : r.getD base = base + o) :
    Fits base L (s.assign n o) ((b.setValue n v).setRegion n r) where
  below m w hw := by
    by_cases hm : m = n
    · subst hm
      obtain rfl : v = w := by
        simpa [InstructionBuilder.setValue, InstructionBuilder.setRegion] using hw
      exact hv
    · exact h.below m w (by
        simpa [InstructionBuilder.setValue, InstructionBuilder.setRegion, hm] using hw)
  label m w hw := by
    by_cases hm : m = n
    · subst hm
      obtain rfl : v = w := by
        simpa [InstructionBuilder.setValue, InstructionBuilder.setRegion] using hw
      simpa [OriginScan.assign] using hL
    · have hw' : b.values m = some w := by
        simpa [InstructionBuilder.setValue, InstructionBuilder.setRegion, hm] using hw
      simpa [OriginScan.assign, hm] using h.label m w hw'
  region m := by
    by_cases hm : m = n
    · subst hm
      simpa [InstructionBuilder.regionOf, InstructionBuilder.setRegion, OriginScan.assign] using hr
    · simpa [InstructionBuilder.regionOf, InstructionBuilder.setRegion,
        InstructionBuilder.setValue, OriginScan.assign, hm] using h.region m
  fresh := h.fresh
  nextRegion := h.nextRegion
  numbered := h.numbered
  emitted := h.emitted

theorem push (h : Fits base L s b) (results : List KirResult) (kind : KirInstructionKind)
    (memory : Option KirMemoryAccess) (effect : Option KirOrderedEffect)
    (hi : Emitted base L b.regions b.ids.value ⟨b.ids.instruction, results, kind, memory, effect⟩) :
    Fits base L s (b.push results kind memory effect) where
  below := h.below
  label := h.label
  region := h.region
  fresh := h.fresh
  nextRegion := h.nextRegion
  numbered := h.numbered
  emitted i hmem := by
    rcases List.mem_append.mp hmem with hmem | hmem
    · exact h.emitted i hmem
    · obtain rfl := List.mem_singleton.mp hmem
      exact hi

theorem pushRegion (h : Fits base L s b) (n : MirValueName) (origin : KirMemoryRegionOrigin)
    (parent : Option MemoryRegionId) (interval : Option KirSymbolicByteInterval) {v : ValueId}
    (hv : v < b.ids.value) (hL : L v = base + s.next) :
    Fits base L (s.fresh n) (((b.pushRegion origin parent base interval).setValue n v).setRegion n
      (some b.ids.region)) := by
  have hpushed : Fits base L { s with next := s.next + 1 }
      (b.pushRegion origin parent base interval) :=
    { below := h.below
      label := h.label
      region := h.region
      fresh := h.fresh
      nextRegion := congrArg (· + 1) h.nextRegion
      numbered := by
        have hrange : List.range' base (s.next + 1) = List.range' base s.next ++ [base + s.next] := by
          rw [List.range'_concat, Nat.one_mul]
        simp [InstructionBuilder.pushRegion, h.numbered, hrange, h.nextRegion]
      emitted := fun i hi ↦ (h.emitted i hi).mono (fun _ _ ↦ rfl)
        (List.subset_append_left _ _) le_rfl }
  exact hpushed.rebind hv hL (by simpa using h.nextRegion)

theorem congr {b' : InstructionBuilder} (h : Fits base L s b) (hids : b'.ids.value = b.ids.value)
    (hregion : b'.ids.region = b.ids.region) (hvalues : b'.values = b.values)
    (hregions : b'.valueRegions = b.valueRegions) (hlist : b'.regions = b.regions)
    (his : b'.instructions = b.instructions) : Fits base L s b' where
  below := by simpa only [hids, hvalues] using h.below
  label := by simpa only [hvalues] using h.label
  region := by simpa only [InstructionBuilder.regionOf, hregions] using h.region
  fresh := by simpa only [hids] using h.fresh
  nextRegion := hregion.trans h.nextRegion
  numbered := by simpa only [hlist] using h.numbered
  emitted := by simpa only [hids, hlist, his] using h.emitted

theorem lookup (h : Fits base L s b) {value : MirValue} {v : ValueId}
    (hv : b.lookupValue value = .ok v) :
    v < b.ids.value ∧ L v = base + s.origin (valueName value) := by
  unfold InstructionBuilder.lookupValue at hv
  split at hv
  · rename_i w hw
    cases hv
    exact ⟨h.below _ _ hw, h.label _ _ hw⟩
  · cases hv

end Fits

/-- Later labels and regions only add to earlier ones. -/
structure Grows (L : Labelling) (b : InstructionBuilder) (L' : Labelling)
    (b' : InstructionBuilder) : Prop where
  value : b.ids.value ≤ b'.ids.value
  label : ∀ v < b.ids.value, L' v = L v
  regions : b.regions ⊆ b'.regions

namespace Grows

variable {L L' L'' : Labelling} {b b' b'' : InstructionBuilder}

theorem refl (L : Labelling) (b : InstructionBuilder) : Grows L b L b :=
  ⟨le_rfl, fun _ _ ↦ rfl, List.Subset.refl _⟩

theorem trans (h : Grows L b L' b') (h' : Grows L' b' L'' b'') : Grows L b L'' b'' where
  value := h.value.trans h'.value
  label v hv := (h'.label v (hv.trans_le h.value)).trans (h.label v hv)
  regions := List.Subset.trans h.regions h'.regions

theorem emitted {base : MemoryRegionId} (h : Grows L b L' b') {i : KirInstruction}
    (hi : Emitted base L b.regions b.ids.value i) : Emitted base L' b'.regions b'.ids.value i :=
  hi.mono h.label h.regions h.value

end Grows

section Steps

open InstructionBuilder

variable {base : MemoryRegionId} {L : Labelling} {s : OriginScan} {b : InstructionBuilder}
variable {config : KirBuildConfig}

theorem OriginScan.assign_eq_self {n : MirValueName} (h : s.origin n = 0) : s.assign n 0 = s := by
  simp [assign, ← h]

theorem Fits.pushPlain (h : Fits base L s b) (results : List KirResult) (kind : KirInstructionKind)
    (memory : Option KirMemoryAccess) (effect : Option KirOrderedEffect) (hk : kind.isPlain)
    (hplaces : kind.places = [])
    (hresults : ∀ x ∈ results.map (·.value), L x = base ∧ x < b.ids.value) :
    Fits base L s (b.push results kind memory effect) := by
  refine h.push _ _ _ _ ⟨KirInstruction.labelled_of_isPlain hk fun x hx ↦ (hresults x hx).1, ?_, ?_⟩
  · simp [hplaces]
  · intro v hv
    rcases List.mem_append.mp hv with hv | hv
    · exact (hresults v hv).2
    · cases kind with
      | load p | store p _ => cases p <;> simp [KirInstructionKind.places, KirPlace.places] at hplaces
      | copy | sliceData | address => simp [KirInstructionKind.isPlain] at hk
      | _ => cases hv

theorem Fits.pushCheck (h : Fits base L s b) (kind : KirCheckConditionKind) (args : List ValueId)
    (failure : KirFailureKind) :
    Fits base L s (b.pushCheck kind args failure) ∧ Grows L b L (b.pushCheck kind args failure) := by
  constructor
  · have hcheck := h.takeValue.pushPlain [⟨b.ids.value, .scalar .bool⟩]
      (.checkCondition kind args) none none rfl rfl
      (by simpa using ⟨h.fresh _ le_rfl, Nat.lt_succ_self _⟩)
    have hguard := hcheck.pushPlain [] (.guard b.ids.value failure) none
      (some ⟨b.effectOrder, .mayFail⟩) rfl rfl (by simp)
    exact hguard.congr rfl rfl rfl rfl rfl rfl
  · exact ⟨Nat.le_succ _, fun _ _ ↦ rfl, List.Subset.refl _⟩

/-- A result without origin for a name without origin. -/
theorem Fits.definePlain (h : Fits base L s b) {target : MirValue} {kind : KirInstructionKind}
    (hk : kind.isPlain) (hplaces : kind.places = []) (ho : s.origin (valueName target) = 0) :
    Fits base L (s.assign (valueName target) 0) (b.defineInstructionResult target kind) ∧
      Grows L b L (b.defineInstructionResult target kind) := by
  rw [OriginScan.assign_eq_self ho]
  constructor
  · have hL : L b.ids.value = base + s.origin (valueName target) := by
      rw [ho]
      exact h.fresh _ le_rfl
    refine (h.takeValue.setValue (Nat.lt_succ_self _) hL).pushPlain _ kind _ _ hk hplaces ?_
    simpa using ⟨h.fresh _ le_rfl, Nat.lt_succ_self _⟩
  · exact ⟨Nat.le_succ _, fun _ _ ↦ rfl, List.Subset.refl _⟩

theorem Fits.defineChecked (h : Fits base L s b) {target : MirValue} {kind : KirInstructionKind}
    (hk : kind.isPlain) (hplaces : kind.places = []) (ho : s.origin (valueName target) = 0) :
    Fits base L (s.assign (valueName target) 0) (b.defineCheckedResult target kind) ∧
      Grows L b L (b.defineCheckedResult target kind) := by
  rw [OriginScan.assign_eq_self ho]
  have hfresh : ∀ k, L (b.ids.value + k) = base := fun k ↦ h.fresh _ (Nat.le_add_right _ _)
  constructor
  · have hL : L b.ids.value = base + s.origin (valueName target) := by
      rw [ho]
      exact hfresh 0
    have hset : Fits base L s
        (b.takeValue.takeValue.setValue (valueName target) b.ids.value) :=
      h.takeValue.takeValue.setValue (show b.ids.value < b.ids.value + 1 + 1 by omega) hL
    have hpushed := hset.pushPlain
      [⟨b.ids.value, .scalar target.typeNode⟩, ⟨b.ids.value + 1, .scalar .bool⟩] kind none none hk
      hplaces (by
        have hlt : b.ids.value + 1 < b.ids.value + 1 + 1 := Nat.lt_succ_self _
        simpa using ⟨⟨hfresh 0, (Nat.lt_succ_self _).trans hlt⟩, hfresh 1, hlt⟩)
    have hguard := hpushed.pushPlain [] (.guard (b.ids.value + 1) .overflow) none
      (some ⟨b.effectOrder, .mayFail⟩) rfl rfl (by simp)
    exact hguard.congr rfl rfl rfl rfl rfl rfl
  · exact ⟨show b.ids.value ≤ b.ids.value + 1 + 1 by omega, fun _ _ ↦ rfl, List.Subset.refl _⟩

/-- What `buildPlace` leaves: the place is labelled, and only checks were added. -/
structure PlaceBuilt (base : MemoryRegionId) (L : Labelling) (s : OriginScan)
    (b : InstructionBuilder) (place : MirPlace) (p : KirPlace) (b' : InstructionBuilder) : Prop where
  fits : Fits base L s b'
  grows : Grows L b L b'
  labelled : p.Labelled base L
  region : p.region = base + s.place place
  bases : ∀ v ∈ p.bases, v < b'.ids.value
  isValue : p.isValue = place.isName

theorem buildPlace_built {place : MirPlace} {p : KirPlace} {b' : InstructionBuilder}
    (h : Fits base L s b) (htracked : s.PlaceTracked place)
    (hb : buildPlace config base place b = .ok (p, b')) : PlaceBuilt base L s b place p b' := by
  induction place generalizing p b' with
  | param name type | «local» name type =>
      simp only [buildPlace] at hb
      split at hb
      · rename_i v hv
        cases hb
        exact ⟨h, .refl _ _, (h.region _).trans (h.label _ _ hv).symm, h.region _,
          by simpa [KirPlace.bases] using h.below _ _ hv, rfl⟩
      · cases hb
  | deref pointer type =>
      obtain ⟨v, hv, hb⟩ := Lib.bind_eq_ok.mp hb
      cases Lib.pure_eq_ok.mp hb
      obtain ⟨hlt, hL⟩ := h.lookup hv
      exact ⟨h, .refl _ _, (h.region _).trans hL.symm, h.region _,
        by simpa [KirPlace.bases] using hlt, rfl⟩
  | index inner i type ih =>
      obtain ⟨⟨q, b''⟩, hq, hb⟩ := Lib.bind_eq_ok.mp hb
      obtain ⟨v, hv, hb⟩ := Lib.bind_eq_ok.mp hb
      cases Lib.pure_eq_ok.mp hb
      have hbuilt := ih htracked.1 hq
      refine ⟨hbuilt.fits, hbuilt.grows, ⟨hbuilt.labelled, rfl, ?_⟩, hbuilt.region, hbuilt.bases,
        rfl⟩
      intro hvalue
      rw [hbuilt.region, htracked.2 (hbuilt.isValue ▸ hvalue), Nat.add_zero]
  | sliceIndex slice i type =>
      obtain ⟨v, hv, hb⟩ := Lib.bind_eq_ok.mp hb
      obtain ⟨w, hw, hb⟩ := Lib.bind_eq_ok.mp hb
      obtain ⟨hlt, hL⟩ := h.lookup hv
      cases Lib.pure_eq_ok.mp hb
      split
      · obtain ⟨hfits, hgrows⟩ := h.pushCheck .sliceOutOfBounds [v, w] .outOfBounds
        refine ⟨hfits, hgrows, (h.region _).trans hL.symm, h.region _, ?_, rfl⟩
        simpa [KirPlace.bases] using hlt.trans_le hgrows.value
      · exact ⟨h, .refl _ _, (h.region _).trans hL.symm, h.region _,
          by simpa [KirPlace.bases] using hlt, rfl⟩
  | field inner name type ih =>
      obtain ⟨⟨q, b''⟩, hq, hb⟩ := Lib.bind_eq_ok.mp hb
      cases Lib.pure_eq_ok.mp hb
      have hbuilt := ih htracked hq
      exact ⟨hbuilt.fits, hbuilt.grows, ⟨hbuilt.labelled, rfl⟩, hbuilt.region, hbuilt.bases, rfl⟩

/-- Construction went on from `b` to `b'`, and the scan to `s'`. -/
def Built (base : MemoryRegionId) (L : Labelling) (b : InstructionBuilder) (s' : OriginScan)
    (b' : InstructionBuilder) : Prop :=
  ∃ L', Fits base L' s' b' ∧ Grows L b L' b'

/-- A result that keeps the origin `o` of its operand. -/
theorem Fits.defineLabelled (h : Fits base L s b) {target : MirValue} {kind : KirInstructionKind}
    (r : Option MemoryRegionId) {o : Nat} (hr : r.getD base = base + o)
    (hi : Emitted base (Function.update L b.ids.value (base + o)) b.regions (b.ids.value + 1)
      ⟨b.ids.instruction, [⟨b.ids.value, .scalar target.typeNode⟩], kind, none, none⟩) :
    Built base L b (s.assign (valueName target) o)
      ((b.defineInstructionResult target kind).setRegion (valueName target) r) := by
  refine ⟨_, ((h.takeLabelled (base + o)).push _ _ _ _ hi).rebind (Nat.lt_succ_self b.ids.value)
    (Function.update_self _ _ _) hr, ?_⟩
  exact ⟨Nat.le_succ _, fun v hv ↦ Function.update_of_ne hv.ne _ _, List.Subset.refl _⟩

/-- A result that is an origin itself. -/
theorem Fits.defineOrigin (h : Fits base L s b) (target : MirValue) {kind : KirInstructionKind}
    (hk : (∃ d n, kind = .makeSlice d n) ∨ ∃ v lo hi, kind = .subslice v lo hi)
    (origin : KirMemoryRegionOrigin) (horigin : origin.value? = some b.ids.value)
    (parent : Option MemoryRegionId) (interval : Option KirSymbolicByteInterval) :
    Built base L b (s.fresh (valueName target))
      (((b.defineInstructionResult target kind).pushRegion origin parent base interval).setRegion
        (valueName target) (some b.ids.region)) := by
  have htaken := h.takeLabelled (base + s.next)
  have hregion := htaken.pushRegion (valueName target) origin parent interval
    (Nat.lt_succ_self b.ids.value) (Function.update_self _ _ _)
  refine ⟨_, hregion.push [⟨b.ids.value, .scalar target.typeNode⟩] kind none none
    ⟨?_, ?_, ?_⟩, ?_⟩
  · have horiginates : Originates (b.regions ++ [⟨b.ids.region, origin, parent, base, interval⟩])
        (Function.update L b.ids.value (base + s.next) b.ids.value) b.ids.value := by
      refine ⟨_, List.mem_append_right _ (List.mem_singleton_self _), ?_, horigin⟩
      rw [Function.update_self]
      exact h.nextRegion
    intro x hx
    obtain rfl : x = b.ids.value := by simpa using hx
    rcases hk with ⟨d, n, rfl⟩ | ⟨v, lo, hi, rfl⟩ <;> exact horiginates
  · rcases hk with ⟨d, n, rfl⟩ | ⟨v, lo, hi, rfl⟩ <;> simp [KirInstructionKind.places]
  · have hlt : ∀ w ∈ [b.ids.value], w < b.ids.value + 1 := by simp
    rcases hk with ⟨d, n, rfl⟩ | ⟨v, lo, hi, rfl⟩ <;> exact hlt
  · exact ⟨Nat.le_succ _, fun v hv ↦ Function.update_of_ne hv.ne _ _,
      List.subset_append_left _ _⟩

theorem buildMove_built (h : Fits base L s b) {target value : MirValue} {b' : InstructionBuilder}
    (hb : b.buildMove target value = .ok b') : Built base L b (s.step (.move target value)) b' := by
  obtain ⟨v, hv, hb⟩ := Lib.bind_eq_ok.mp hb
  obtain ⟨hlt, hL⟩ := h.lookup hv
  have hregion := h.region (valueName value)
  have hcopy : Built base L b (s.assign (valueName target) (s.origin (valueName value)))
      ((b.defineInstructionResult target (.copy v)).setRegion (valueName target)
        (b.valueRegions (valueName value))) := by
    refine h.defineLabelled _ hregion ⟨?_, by simp [KirInstructionKind.places], ?_⟩
    · intro x hx
      obtain rfl : x = b.ids.value := by simpa using hx
      simpa [Function.update_of_ne hlt.ne] using hL.symm
    · simpa [KirInstruction.labelled] using hlt.trans (Nat.lt_succ_self _)
  cases target with
  | param | «local» =>
      cases Lib.pure_eq_ok.mp hb
      exact ⟨L, h.rebind hlt hL hregion, le_rfl, fun _ _ ↦ rfl, List.Subset.refl _⟩
  | temp | constInt | constFloat | constBool =>
      cases Lib.pure_eq_ok.mp hb
      exact hcopy

theorem buildAddress_built (h : Fits base L s b) {target : MirValue} {place : MirPlace}
    {b' : InstructionBuilder} (htracked : s.PlaceTracked place)
    (hb : b.buildAddress config base target place = .ok b') :
    Built base L b (s.step (.address target place)) b' := by
  obtain ⟨⟨p, c⟩, hp, hb⟩ := Lib.bind_eq_ok.mp hb
  cases Lib.pure_eq_ok.mp hb
  have hplace := buildPlace_built h htracked hp
  have hstable : ∀ v ∈ p.bases,
      Function.update L c.ids.value (base + s.place place) v = L v :=
    fun v hv ↦ Function.update_of_ne (hplace.bases v hv).ne _ _
  have hemitted : Emitted base (Function.update L c.ids.value (base + s.place place)) c.regions
      (c.ids.value + 1)
      ⟨c.ids.instruction, [⟨c.ids.value, .scalar target.typeNode⟩], .address p, none, none⟩ := by
    refine ⟨?_, ?_, ?_⟩
    · intro x hx
      obtain rfl : x = c.ids.value := by simpa using hx
      simpa using hplace.region.symm
    · intro q hq
      exact (KirPlace.labelled_of_mem_places hplace.labelled hq).congr fun v hv ↦
        hstable v (KirPlace.bases_of_mem_places hq ▸ hv)
    · intro v hv
      rcases List.mem_cons.mp hv with rfl | hv
      · exact Nat.lt_succ_self _
      · exact Nat.lt_succ_of_lt (hplace.bases v hv)
  obtain ⟨L', hfits, hgrows⟩ :=
    hplace.fits.defineLabelled (some p.region) hplace.region hemitted
  exact ⟨L', hfits, hplace.grows.trans hgrows⟩

/-- A load or a store of a labelled place. -/
theorem Fits.pushPlace (h : Fits base L s b) (results : List KirResult) {kind : KirInstructionKind}
    (memory : Option KirMemoryAccess) (effect : Option KirOrderedEffect) {p : KirPlace}
    (hk : kind = .load p ∨ ∃ v, kind = .store p v) (hp : p.Labelled base L)
    (hbases : ∀ v ∈ p.bases, v < b.ids.value)
    (hresults : ∀ x ∈ results.map (·.value), L x = base ∧ x < b.ids.value) :
    Fits base L s (b.push results kind memory effect) := by
  have hplain : kind.isPlain := by rcases hk with rfl | ⟨v, rfl⟩ <;> rfl
  have hplaces : kind.places = p.places := by rcases hk with rfl | ⟨v, rfl⟩ <;> rfl
  refine h.push _ _ _ _ ⟨KirInstruction.labelled_of_isPlain hplain fun x hx ↦ (hresults x hx).1,
    fun q hq ↦ KirPlace.labelled_of_mem_places hp (hplaces ▸ hq), ?_⟩
  intro v hv
  rcases List.mem_append.mp hv with hv | hv
  · exact (hresults v hv).2
  · rcases hk with rfl | ⟨w, rfl⟩ <;> exact hbases v hv

theorem buildLoad_built (h : Fits base L s b) {target : MirValue} {place : MirPlace}
    {b' : InstructionBuilder} (htracked : s.StepTracked (.load target place))
    (hb : b.buildLoad config base target place = .ok b') :
    Built base L b (s.step (.load target place)) b' := by
  obtain ⟨⟨p, c⟩, hp, hb⟩ := Lib.bind_eq_ok.mp hb
  cases Lib.pure_eq_ok.mp hb
  have hplace := buildPlace_built h (htracked.2 _ rfl) hp
  have ho : s.origin (valueName target) = 0 := htracked.1 _ rfl
  have hfresh : L c.ids.value = base := hplace.fits.fresh _ le_rfl
  have hset : Fits base L s (c.takeValue.setValue (valueName target) c.ids.value) :=
    hplace.fits.takeValue.setValue (Nat.lt_succ_self _) (by rw [ho]; exact hfresh)
  have hpush := hset.pushPlace [⟨c.ids.value, .scalar target.typeNode⟩]
    (some ⟨base, c.currentMemory, none⟩) (some (c.nextEffect .readMemory)) (.inl rfl)
    hplace.labelled (fun v hv ↦ Nat.lt_succ_of_lt (hplace.bases v hv))
    (by simpa using ⟨hfresh, Nat.lt_succ_self _⟩)
  refine ⟨L, ?_, hplace.grows.trans ⟨Nat.le_succ _, fun _ _ ↦ rfl, List.Subset.refl _⟩⟩
  rw [OriginScan.step, OriginScan.assign_eq_self ho]
  exact hpush.congr rfl rfl rfl rfl rfl rfl

theorem buildStore_built (h : Fits base L s b) {place : MirPlace} {value : MirValue}
    {b' : InstructionBuilder} (htracked : s.PlaceTracked place)
    (hb : b.buildStore config base place value = .ok b') :
    Built base L b (s.step (.store place value)) b' := by
  obtain ⟨⟨p, c⟩, hp, hb⟩ := Lib.bind_eq_ok.mp hb
  obtain ⟨v, hv, hb⟩ := Lib.bind_eq_ok.mp hb
  cases Lib.pure_eq_ok.mp hb
  have hplace := buildPlace_built h htracked hp
  have htaken : Fits base L s c.takeMemory := hplace.fits.congr rfl rfl rfl rfl rfl rfl
  have hpush := htaken.pushPlace [] (some ⟨base, c.currentMemory, some c.ids.memory⟩)
    (some (c.nextEffect .writeMemory)) (.inr ⟨v, rfl⟩) hplace.labelled hplace.bases (by simp)
  refine ⟨L, hpush.congr rfl rfl rfl rfl rfl rfl, hplace.grows.trans ?_⟩
  exact ⟨le_rfl, fun _ _ ↦ rfl, List.Subset.refl _⟩

theorem buildMakeSlice_built (h : Fits base L s b) {target data len : MirValue}
    {b' : InstructionBuilder} (hb : b.buildMakeSlice base target data len = .ok b') :
    Built base L b (s.step (.makeSlice target data len)) b' := by
  obtain ⟨d, _, hb⟩ := Lib.bind_eq_ok.mp hb
  obtain ⟨n, _, hb⟩ := Lib.bind_eq_ok.mp hb
  cases Lib.pure_eq_ok.mp hb
  exact h.defineOrigin target (.inl ⟨d, n, rfl⟩) (.rawSlice b.ids.value) rfl _ none

theorem buildSliceData_built (h : Fits base L s b) {target slice : MirValue}
    {b' : InstructionBuilder} (hb : b.buildSliceData target slice = .ok b') :
    Built base L b (s.step (.sliceData target slice)) b' := by
  obtain ⟨v, hv, hb⟩ := Lib.bind_eq_ok.mp hb
  cases Lib.pure_eq_ok.mp hb
  obtain ⟨hlt, hL⟩ := h.lookup hv
  refine h.defineLabelled _ (h.region (valueName slice))
    ⟨?_, by simp [KirInstructionKind.places], ?_⟩
  · intro x hx
    obtain rfl : x = b.ids.value := by simpa using hx
    simpa [Function.update_of_ne hlt.ne] using hL.symm
  · simpa [KirInstruction.labelled] using hlt.trans (Nat.lt_succ_self _)

theorem buildSubslice_built (h : Fits base L s b) {target slice start stop : MirValue}
    {b' : InstructionBuilder}
    (hb : b.buildSubslice config base target slice start stop = .ok b') :
    Built base L b (s.step (.subslice target slice start stop)) b' := by
  obtain ⟨v, _, hb⟩ := Lib.bind_eq_ok.mp hb
  obtain ⟨lo, _, hb⟩ := Lib.bind_eq_ok.mp hb
  obtain ⟨hi, _, hb⟩ := Lib.bind_eq_ok.mp hb
  have hcut : ∀ c : InstructionBuilder, Fits base L s c → Grows L b L c → ∀ element : MirType,
      Built base L b (s.step (.subslice target slice start stop))
        ((((c.defineInstructionResult target (.subslice v lo hi)).pushRegion
          (.subslice c.ids.value) (c.valueRegions (valueName slice)) base
          (some ⟨lo, hi, element⟩)).setRegion (valueName target) (some c.ids.region))) := by
    intro c hc hgrows element
    obtain ⟨L', hfits, hgrows'⟩ := hc.defineOrigin target (.inr ⟨v, lo, hi, rfl⟩)
      (.subslice c.ids.value) rfl (c.valueRegions (valueName slice)) (some ⟨lo, hi, element⟩)
    exact ⟨L', hfits, hgrows.trans hgrows'⟩
  dsimp only at hb
  split at hb
  case h_2 => cases hb
  case h_1 element _ =>
    cases Lib.pure_eq_ok.mp hb
    split
    · obtain ⟨hc, hgrows⟩ := h.pushCheck .invalidSubslice [v, lo, hi] .outOfBounds
      exact hcut _ hc hgrows element
    · exact hcut _ h (.refl _ _) element

theorem buildUnary_built (h : Fits base L s b) {target operand : MirValue} {op : MirUnaryOp}
    {b' : InstructionBuilder} (htracked : s.StepTracked (.unary target op operand))
    (hb : b.buildUnary config target op operand = .ok b') :
    Built base L b (s.step (.unary target op operand)) b' := by
  obtain ⟨v, _, hb⟩ := Lib.bind_eq_ok.mp hb
  have ho : s.origin (valueName target) = 0 := htracked.1 _ rfl
  dsimp only at hb
  split at hb
  · cases Lib.pure_eq_ok.mp hb
    exact ⟨L, h.defineChecked rfl rfl ho⟩
  · cases Lib.pure_eq_ok.mp hb
    exact ⟨L, h.definePlain rfl rfl ho⟩

theorem buildBinary_built (h : Fits base L s b) {target left right : MirValue} {op : MirBinaryOp}
    {b' : InstructionBuilder} (htracked : s.StepTracked (.binary target op left right))
    (hb : b.buildBinary config target op left right = .ok b') :
    Built base L b (s.step (.binary target op left right)) b' := by
  obtain ⟨l, _, hb⟩ := Lib.bind_eq_ok.mp hb
  obtain ⟨r, _, hb⟩ := Lib.bind_eq_ok.mp hb
  have ho : s.origin (valueName target) = 0 := htracked.1 _ rfl
  have hdefine : ∀ c kind, Fits base L s c → Grows L b L c → kind.isPlain → kind.places = [] →
      Built base L b (s.step (.binary target op left right))
        (c.defineInstructionResult target kind) := by
    intro c kind hc hgrows hk hplaces
    obtain ⟨hfits, hgrows'⟩ := hc.definePlain hk hplaces ho
    exact ⟨L, hfits, hgrows.trans hgrows'⟩
  dsimp only at hb
  split at hb
  case isFalse =>
    cases Lib.pure_eq_ok.mp hb
    exact hdefine b _ h (.refl _ _) rfl rfl
  case isTrue =>
    cases op with
    | add | sub | mul =>
        cases Lib.pure_eq_ok.mp hb
        exact ⟨L, h.defineChecked rfl rfl ho⟩
    | div | mod =>
        cases Lib.pure_eq_ok.mp hb
        obtain ⟨hzero, hgrows⟩ := h.pushCheck .divisionByZero [r] .divisionByZero
        split
        · obtain ⟨hover, hgrows'⟩ := hzero.pushCheck .signedDivisionOverflow [l, r] .overflow
          exact hdefine _ _ hover (hgrows.trans hgrows') rfl rfl
        · exact hdefine _ _ hzero hgrows rfl rfl

theorem Fits.bindCallResult (h : Fits base L s b) {target : Option MirValue}
    (ho : ∀ v, target = some v → s.origin (valueName v) = 0) :
    Fits base L s (b.bindCallResult target).2 ∧ Grows L b L (b.bindCallResult target).2 ∧
      ∀ x ∈ (b.bindCallResult target).1.map (·.value),
        L x = base ∧ x < (b.bindCallResult target).2.ids.value := by
  cases target with
  | none => exact ⟨h, .refl _ _, by simp [InstructionBuilder.bindCallResult]⟩
  | some v =>
      have hfresh : L b.ids.value = base := h.fresh _ le_rfl
      refine ⟨h.takeValue.setValue (Nat.lt_succ_self _) (by rw [ho v rfl]; exact hfresh),
        ⟨Nat.le_succ _, fun _ _ ↦ rfl, List.Subset.refl _⟩, ?_⟩
      simpa [InstructionBuilder.bindCallResult] using ⟨hfresh, Nat.lt_succ_self _⟩

theorem buildCall_built (h : Fits base L s b) {target : Option MirValue} {name : String}
    {args : List MirValue} {b' : InstructionBuilder}
    (htracked : s.StepTracked (.call target name args))
    (hb : b.buildCall base target name args = .ok b') :
    Built base L b (s.step (.call target name args)) b' := by
  obtain ⟨vs, _, hb⟩ := Lib.bind_eq_ok.mp hb
  cases Lib.pure_eq_ok.mp hb
  obtain ⟨hbound, hgrows, hresults⟩ := h.bindCallResult htracked.1
  have htaken : Fits base L s (b.bindCallResult target).2.takeMemory :=
    hbound.congr rfl rfl rfl rfl rfl rfl
  have hstep : s.step (.call target name args) = s := by
    cases target with
    | none => rfl
    | some v => exact OriginScan.assign_eq_self (htracked.1 v rfl)
  have hpush := htaken.pushPlain (b.bindCallResult target).1 (.call name vs)
    (some ⟨base, (b.bindCallResult target).2.currentMemory,
      some (b.bindCallResult target).2.ids.memory⟩)
    (some ((b.bindCallResult target).2.nextEffect .call)) rfl rfl hresults
  refine ⟨L, ?_, hgrows.trans ⟨le_rfl, fun _ _ ↦ rfl, List.Subset.refl _⟩⟩
  rw [hstep]
  exact hpush.congr rfl rfl rfl rfl rfl rfl

theorem buildRuntimeCall_built (h : Fits base L s b) {intrinsic : MirRuntimeIntrinsic}
    {args : List MirValue} {b' : InstructionBuilder}
    (hb : b.buildRuntimeCall intrinsic args = .ok b') :
    Built base L b (s.step (.runtimeCall intrinsic args)) b' := by
  obtain ⟨vs, _, hb⟩ := Lib.bind_eq_ok.mp hb
  cases Lib.pure_eq_ok.mp hb
  have hpush := h.pushPlain [] (.runtimeCall intrinsic vs) none (some (b.nextEffect .runtime))
    rfl rfl (by simp)
  exact ⟨L, hpush.congr rfl rfl rfl rfl rfl rfl, le_rfl, fun _ _ ↦ rfl, List.Subset.refl _⟩

/-- One instruction: construction and the scan stay in step. -/
theorem build_built (h : Fits base L s b) {i : MirInstruction} {b' : InstructionBuilder}
    (htracked : s.StepTracked i) (hb : b.build config base i = .ok b') :
    Built base L b (s.step i) b' := by
  cases i with
  | constInt target | constFloat target | constBool target =>
      cases Lib.pure_eq_ok.mp hb
      exact ⟨L, h.definePlain rfl rfl (htracked.1 _ rfl)⟩
  | move => exact buildMove_built h hb
  | unary => exact buildUnary_built h htracked hb
  | binary => exact buildBinary_built h htracked hb
  | compare target op left right =>
      obtain ⟨l, _, hb⟩ := Lib.bind_eq_ok.mp hb
      obtain ⟨r, _, hb⟩ := Lib.bind_eq_ok.mp hb
      cases Lib.pure_eq_ok.mp hb
      exact ⟨L, h.definePlain rfl rfl (htracked.1 _ rfl)⟩
  | cast target op value | sliceLen target value =>
      obtain ⟨v, _, hb⟩ := Lib.bind_eq_ok.mp hb
      cases Lib.pure_eq_ok.mp hb
      exact ⟨L, h.definePlain rfl rfl (htracked.1 _ rfl)⟩
  | address => exact buildAddress_built h (htracked.2 _ rfl) hb
  | load => exact buildLoad_built h htracked hb
  | store => exact buildStore_built h (htracked.2 _ rfl) hb
  | makeSlice => exact buildMakeSlice_built h hb
  | sliceData => exact buildSliceData_built h hb
  | subslice => exact buildSubslice_built h hb
  | call => exact buildCall_built h htracked hb
  | runtimeCall => exact buildRuntimeCall_built h hb

theorem Built.trans {L' : Labelling} {b' b'' : InstructionBuilder} {s'' : OriginScan}
    (hgrows : Grows L b L' b') (h : Built base L' b' s'' b'') : Built base L b s'' b'' := by
  obtain ⟨L'', hfits, hgrows'⟩ := h
  exact ⟨L'', hfits, hgrows.trans hgrows'⟩

theorem buildInstructions_built {is : List MirInstruction} (h : Fits base L s b)
    {b' : InstructionBuilder} (htracked : s.Tracked is)
    (hb : buildInstructions config base is b = .ok b') : Built base L b (s.run is) b' := by
  induction is generalizing L s b with
  | nil =>
      cases hb
      exact ⟨L, h, .refl _ _⟩
  | cons i rest ih =>
      obtain ⟨c, hc, hb⟩ := Lib.bind_eq_ok.mp hb
      obtain ⟨L', hfits, hgrows⟩ := build_built h htracked.1 hc
      exact .trans hgrows (ih hfits htracked.2 hb)

end Steps

/-! ## Entry and blocks -/

section Entry

open InstructionBuilder

variable {base : MemoryRegionId} {L : Labelling} {s : OriginScan} {b : InstructionBuilder}

theorem openFunction_fits (ids : KirIds) :
    Fits ids.region (fun _ ↦ ids.region) ⟨1, fun _ ↦ 0⟩ (openFunction ids) where
  below n v hv := by cases hv
  label n v hv := by cases hv
  region n := rfl
  fresh v hv := rfl
  nextRegion := rfl
  numbered := rfl
  emitted i hi := by cases hi

/-- A parameter is labelled with the region it originates when it is a pointer or a slice. -/
theorem bindParam_fits (h : Fits base L s b) (p : MirParam) :
    ∃ L', Fits base L' (s.param p) (b.bindParam base p) ∧ Grows L b L' (b.bindParam base p) ∧
      (b.bindParam base p).ids.value = b.ids.value + 1 ∧
      (isMemoryOriginType p.typeNode →
        Originates (b.bindParam base p).regions (L' b.ids.value) b.ids.value) := by
  unfold bindParam OriginScan.param
  by_cases hp : isMemoryOriginType p.typeNode
  · simp only [if_pos hp]
    refine ⟨_, (h.takeLabelled (base + s.next)).pushRegion (.param p.name)
      (.parameter b.ids.value) none none (Nat.lt_succ_self _) (Function.update_self _ _ _), ?_, rfl,
      ?_⟩
    · exact ⟨Nat.le_succ _, fun v hv ↦ Function.update_of_ne hv.ne _ _,
        List.subset_append_left _ _⟩
    · intro _
      refine ⟨_, List.mem_append_right _ (List.mem_singleton_self _), ?_, rfl⟩
      rw [Function.update_self]
      exact h.nextRegion
  · simp only [if_neg hp]
    refine ⟨_, (h.takeLabelled (base + s.origin (.param p.name))).setValue (Nat.lt_succ_self _)
      (Function.update_self _ _ _), ?_, rfl, fun h ↦ absurd h hp⟩
    exact ⟨Nat.le_succ _, fun v hv ↦ Function.update_of_ne hv.ne _ _, List.Subset.refl _⟩

theorem bindParams_fits (h : Fits base L s b) (params : List MirParam) :
    ∃ L', Fits base L' (params.foldl OriginScan.param s) (params.foldl (·.bindParam base) b) ∧
      Grows L b L' (params.foldl (·.bindParam base) b) ∧
      (params.foldl (·.bindParam base) b).ids.value = b.ids.value + params.length ∧
      ∀ (j : Nat) (p : MirParam), params[j]? = some p → isMemoryOriginType p.typeNode →
        Originates (params.foldl (·.bindParam base) b).regions (L' (b.ids.value + j))
          (b.ids.value + j) := by
  induction params generalizing L s b with
  | nil => exact ⟨L, h, .refl _ _, rfl, by simp⟩
  | cons p params ih =>
      obtain ⟨L₁, hfits, hgrows, hids, hp⟩ := bindParam_fits h p
      obtain ⟨L₂, hfits', hgrows', hlength, hparams⟩ := ih hfits
      refine ⟨L₂, hfits', hgrows.trans hgrows', ?_, ?_⟩
      · rw [List.foldl_cons, hlength, hids, List.length_cons, Nat.add_assoc, Nat.add_comm 1]
      intro j q hq htype
      cases j with
      | zero =>
          obtain rfl : p = q := by simpa using hq
          have hlt : b.ids.value < (b.bindParam base p).ids.value := hids ▸ Nat.lt_succ_self _
          rw [Nat.add_zero, hgrows'.label _ hlt]
          exact (hp htype).mono hgrows'.regions
      | succ j =>
          have hj := hparams j q (by simpa using hq) htype
          rwa [hids, Nat.add_assoc, Nat.add_comm 1 j] at hj

theorem OriginScan.param_origin (p : MirParam) {n : MirValueName} (hn : ∀ name, n ≠ .param name) :
    (s.param p).origin n = s.origin n := by
  unfold param
  split
  · simp [OriginScan.fresh, hn]
  · rfl

theorem OriginScan.start_origin (f : MirFunction) {n : MirValueName}
    (hn : ∀ name, n ≠ .param name) : (start f).origin n = 0 := by
  have hfold : ∀ (params : List MirParam) (s : OriginScan),
      (params.foldl param s).origin n = s.origin n := by
    intro params
    induction params with
    | nil => exact fun _ ↦ rfl
    | cons p params ih => exact fun s ↦ (ih _).trans (param_origin p hn)
  exact hfold _ _

/-- A value of the entry prefix: an unassigned local or a constant. -/
theorem Fits.prefix (h : Fits base L s b) {n : MirValueName} (hn : s.origin n = 0)
    {type : KirValueType} {kind : KirInstructionKind} (hk : kind.isPlain ∨ ∃ slot, kind = .undef slot)
    (hplaces : kind.places = []) :
    Fits base L s ((b.takeValue.setValue n b.ids.value).push [⟨b.ids.value, type⟩] kind none none) ∧
      Grows L b L
        ((b.takeValue.setValue n b.ids.value).push [⟨b.ids.value, type⟩] kind none none) := by
  refine ⟨?_, Nat.le_succ _, fun _ _ ↦ rfl, List.Subset.refl _⟩
  have hfresh : L b.ids.value = base := h.fresh _ le_rfl
  have hset := h.takeValue.setValue (Nat.lt_succ_self b.ids.value) (by rw [hn]; exact hfresh)
  rcases hk with hk | ⟨slot, rfl⟩
  · refine hset.pushPlain _ kind _ _ hk hplaces ?_
    simpa using ⟨hfresh, Nat.lt_succ_self _⟩
  · refine hset.push _ _ _ _ ⟨fun _ _ ↦ trivial, by simp [KirInstructionKind.places], ?_⟩
    have hlt : ∀ v ∈ [b.ids.value], v < b.ids.value + 1 := by simp
    exact hlt

theorem bindLocals_fits (h : Fits base L s b) (hs : ∀ name, s.origin (.local name) = 0)
    (locals : List MirLocal) :
    Fits base L s (locals.foldl bindLocal b) ∧ Grows L b L (locals.foldl bindLocal b) := by
  induction locals generalizing b with
  | nil => exact ⟨h, .refl _ _⟩
  | cons l locals ih =>
      obtain ⟨hfits, hgrows⟩ := h.prefix (hs l.name) (.inr ⟨l.name, rfl⟩) rfl
      obtain ⟨hfits', hgrows'⟩ := ih hfits
      exact ⟨hfits', hgrows.trans hgrows'⟩

theorem bindConstants_fits (h : Fits base L s b) (constants : List MirValue)
    (hs : ∀ c ∈ constants, s.origin (valueName c) = 0) :
    Fits base L s (constants.foldl bindConstant b) ∧
      Grows L b L (constants.foldl bindConstant b) := by
  induction constants generalizing b with
  | nil => exact ⟨h, .refl _ _⟩
  | cons c constants ih =>
      have hk : (constantKind c).isPlain ∨ ∃ slot, constantKind c = .undef slot := by
        cases c <;> simp [constantKind, KirInstructionKind.isPlain]
      have hplaces : (constantKind c).places = [] := by
        cases c <;> simp [constantKind, KirInstructionKind.places]
      obtain ⟨hfits, hgrows⟩ := h.prefix (hs c List.mem_cons_self) hk hplaces
      obtain ⟨hfits', hgrows'⟩ := ih hfits fun c hc ↦ hs c (List.mem_cons_of_mem _ hc)
      exact ⟨hfits', hgrows.trans hgrows'⟩

theorem isConstant_of_mem_inlineConstants {f : MirFunction} {v : MirValue}
    (h : v ∈ inlineConstants f) : v.isConstant := by
  have hfold : ∀ (vs seen : List MirValue), (∀ w ∈ seen, w.isConstant) →
      ∀ w ∈ vs.foldl (fun seen v ↦
        if v.isConstant ∧ valueName v ∉ seen.map valueName then seen ++ [v] else seen) seen,
        w.isConstant := by
    intro vs
    induction vs with
    | nil => exact fun _ h ↦ h
    | cons x vs ih =>
        intro seen hseen
        refine ih _ ?_
        dsimp only
        split
        · rename_i hx
          intro w hw
          rcases List.mem_append.mp hw with hw | hw
          · exact hseen w hw
          · obtain rfl := List.mem_singleton.mp hw
            exact hx.1
        · exact hseen
  exact hfold _ [] (by simp) v h

theorem entryBuilder_fits (f : MirFunction) (ids : KirIds) :
    ∃ L, Fits ids.region L (.start f) (entryBuilder f ids) ∧
      Grows (fun _ ↦ ids.region) (openFunction ids) L (entryBuilder f ids) ∧
      ∀ (j : Nat) (p : MirParam), f.params[j]? = some p → isMemoryOriginType p.typeNode →
        ids.value + j < (entryBuilder f ids).ids.value ∧
        Originates (entryBuilder f ids).regions (L (ids.value + j)) (ids.value + j) := by
  obtain ⟨L, hparams, hgrows, hlength, horigin⟩ :=
    bindParams_fits (openFunction_fits ids) f.params
  obtain ⟨hlocals, hgrows₁⟩ := bindLocals_fits hparams
    (fun name ↦ OriginScan.start_origin f (by simp)) f.locals
  obtain ⟨hconstants, hgrows₂⟩ := bindConstants_fits hlocals (inlineConstants f)
    (fun c hc ↦ OriginScan.start_origin f (by
      have := isConstant_of_mem_inlineConstants hc
      cases c <;> simp_all [valueName, MirValue.isConstant]))
  have hrest := hgrows₁.trans hgrows₂
  refine ⟨L, hconstants, hgrows.trans hrest, ?_⟩
  intro j p hp htype
  have hj : j < f.params.length := (List.getElem?_eq_some_iff.mp hp).1
  have hlt : ids.value + j < (f.params.foldl (·.bindParam ids.region) (openFunction ids)).ids.value := by
    rw [hlength]
    exact Nat.add_lt_add_left hj _
  exact ⟨hlt.trans_le hrest.value, (horigin j p hp htype).mono hrest.regions⟩

end Entry

section Blocks

variable {base : MemoryRegionId} {L : Labelling} {s : OriginScan} {b : InstructionBuilder}

theorem bindSlots_eq_some {values : MirValueName → Option ValueId}
    {l : List (Slot × KirBlockParam)} {n : MirValueName} {v : ValueId}
    (h : bindSlots values l n = some v) :
    values n = some v ∨ ∃ p ∈ l, p.1.1 = n ∧ p.2.value = v := by
  induction l generalizing values with
  | nil => exact .inl h
  | cons p l ih =>
      obtain ⟨slot, param⟩ := p
      rcases ih h with hv | ⟨q, hq, hqv⟩
      · by_cases hn : n = slot.1
        · subst hn
          rw [Function.update_self] at hv
          exact .inr ⟨_, List.mem_cons_self, rfl, Option.some.inj hv⟩
        · rw [Function.update_of_ne hn] at hv
          exact .inl hv
      · exact .inr ⟨q, List.mem_cons_of_mem _ hq, hqv⟩

/-- The parameters of block `k` are labelled with the origins their slots have there. -/
def SlotsLabelled (plan : BlockPlan) (L : Labelling) (s : OriginScan) (k : Nat)
    (bound : ValueId) : Prop :=
  ∀ (j : Nat) (slot : Slot) (param : KirBlockParam), plan.slots[j]? = some slot →
    (plan.params k)[j]? = some param →
    param.value < bound ∧ L param.value = plan.conservative + s.origin slot.1

theorem Fits.openBlock {plan : BlockPlan} (h : Fits plan.conservative L s b) {k : Nat}
    (hslots : SlotsLabelled plan L s k b.ids.value) :
    Fits plan.conservative L s (plan.openBlock k b) := by
  unfold BlockPlan.openBlock
  split
  · exact h
  · have hparam : ∀ p ∈ plan.slots.zip (plan.params k),
        p.2.value < b.ids.value ∧ L p.2.value = plan.conservative + s.origin p.1.1 := by
      intro p hp
      obtain ⟨j, hj⟩ := List.mem_iff_getElem?.mp hp
      rw [List.getElem?_zip_eq_some] at hj
      exact hslots j p.1 p.2 hj.1 hj.2
    exact
      { below := by
          intro n v hv
          rcases bindSlots_eq_some hv with hv | ⟨p, hp, _, rfl⟩
          · exact h.below n v hv
          · exact (hparam p hp).1
        label := by
          intro n v hv
          rcases bindSlots_eq_some hv with hv | ⟨p, hp, rfl, rfl⟩
          · exact h.label n v hv
          · exact (hparam p hp).2
        region := h.region
        fresh := h.fresh
        nextRegion := h.nextRegion
        numbered := h.numbered
        emitted := by simp }

theorem buildTerminator_fits {terminator : MirTerminator} {slots : List Slot}
    {blockIds : String → Option BlockId} {t : KirTerminator} {b' : InstructionBuilder}
    (h : Fits base L s b) (hb : buildTerminator terminator b slots blockIds base = .ok (t, b')) :
    Fits base L s b' ∧ Grows L b L b' := by
  cases terminator with
  | «return» value =>
      obtain ⟨v, _, hb⟩ := Lib.bind_eq_ok.mp hb
      cases Lib.pure_eq_ok.mp hb
      exact ⟨h.congr rfl rfl rfl rfl rfl rfl, le_rfl, fun _ _ ↦ rfl, List.Subset.refl _⟩
  | jump label =>
      obtain ⟨edge, _, hb⟩ := Lib.bind_eq_ok.mp hb
      cases Lib.pure_eq_ok.mp hb
      exact ⟨h, .refl _ _⟩
  | branch condition thenLabel elseLabel =>
      obtain ⟨c, _, hb⟩ := Lib.bind_eq_ok.mp hb
      obtain ⟨thenEdge, _, hb⟩ := Lib.bind_eq_ok.mp hb
      obtain ⟨elseEdge, _, hb⟩ := Lib.bind_eq_ok.mp hb
      cases Lib.pure_eq_ok.mp hb
      exact ⟨h, .refl _ _⟩

/-- A block was built from `b` to `b'`: its instructions are labelled. -/
structure BlockBuilt (plan : BlockPlan) (L : Labelling) (b : InstructionBuilder) (s' : OriginScan)
    (k : Nat) (block : KirBlock) (L' : Labelling) (b' : InstructionBuilder) : Prop where
  fits : Fits plan.conservative L' s' b'
  grows : Grows L b L' b'
  params : block.params = plan.params k
  emitted : ∀ i ∈ block.instructions, Emitted plan.conservative L' b'.regions b'.ids.value i

theorem buildBlock_built {plan : BlockPlan} (h : Fits plan.conservative L s b) {k : Nat}
    {mir : MirBlock} {block : KirBlock} {b' : InstructionBuilder}
    (hslots : SlotsLabelled plan L s k b.ids.value) (htracked : s.Tracked mir.instructions)
    (hb : plan.buildBlock k mir b = .ok (block, b')) :
    ∃ L', BlockBuilt plan L b (s.run mir.instructions) k block L' b' := by
  obtain ⟨c, hc, hb⟩ := Lib.bind_eq_ok.mp hb
  obtain ⟨⟨t, d⟩, hd, hb⟩ := Lib.bind_eq_ok.mp hb
  dsimp only at hb
  split at hb
  case h_2 => cases hb
  case h_1 id _ =>
    cases Lib.pure_eq_ok.mp hb
    obtain ⟨L', hfits, hgrows⟩ := buildInstructions_built (h.openBlock hslots) htracked hc
    obtain ⟨hfits', hgrows'⟩ := buildTerminator_fits hfits hd
    have hopen : Grows L b L (plan.openBlock k b) := by
      unfold BlockPlan.openBlock
      split
      · exact .refl _ _
      · exact ⟨le_rfl, fun _ _ ↦ rfl, List.Subset.refl _⟩
    exact ⟨L', hfits', (hopen.trans hgrows).trans hgrows', rfl,
      fun i hi ↦ hgrows'.emitted (hfits.emitted i hi)⟩

theorem MirFunction.layoutScan_succ {f : MirFunction} {k : Nat} {block : MirBlock}
    (h : f.blocks[k]? = some block) :
    f.layoutScan (k + 1) = (f.layoutScan k).run block.instructions := by
  obtain ⟨hk, hblock⟩ := List.getElem?_eq_some_iff.mp h
  rw [layoutScan, List.take_add_one, h, List.foldl_append]
  rfl

/-- The blocks from `k` on. -/
theorem buildBlocks_built {f : MirFunction} {plan : BlockPlan} (ht : f.OriginsTracked)
    {mirs : List MirBlock} {k : Nat} (hmirs : f.blocks.drop k = mirs)
    (h : Fits plan.conservative L (f.layoutScan k) b)
    (hslots : ∀ j, k ≤ j → j < f.blocks.length →
      SlotsLabelled plan L (f.layoutScan j) j b.ids.value)
    {blocks : List KirBlock} {b' : InstructionBuilder}
    (hb : plan.buildBlocks k mirs b = .ok (blocks, b')) :
    ∃ L', (∃ s', Fits plan.conservative L' s' b') ∧ Grows L b L' b' ∧
      (∀ block ∈ blocks, ∀ i ∈ block.instructions,
        Emitted plan.conservative L' b'.regions b'.ids.value i) ∧
      ∀ (j : Nat) (block : KirBlock), blocks[j]? = some block →
        k + j < f.blocks.length ∧ block.params = plan.params (k + j) := by
  induction mirs generalizing k L b blocks b' with
  | nil =>
      cases hb
      exact ⟨L, ⟨_, h⟩, .refl _ _, by simp, by simp⟩
  | cons mir mirs ih =>
      obtain ⟨⟨block, c⟩, hc, hb⟩ := Lib.bind_eq_ok.mp hb
      obtain ⟨⟨rest, d⟩, hd, hb⟩ := Lib.bind_eq_ok.mp hb
      cases Lib.pure_eq_ok.mp hb
      have hmir : f.blocks[k]? = some mir := by
        have := congrArg (·[0]?) hmirs
        simpa [List.getElem?_drop] using this
      have hk : k < f.blocks.length := (List.getElem?_eq_some_iff.mp hmir).1
      have htracked := (List.getElem?_eq_some_iff.mp hmir).2 ▸ ht k hk
      obtain ⟨L₁, hbuilt⟩ := buildBlock_built h (hslots k le_rfl hk) htracked hc
      have hfits : Fits plan.conservative L₁ (f.layoutScan (k + 1)) c := by
        rw [MirFunction.layoutScan_succ hmir]
        exact hbuilt.fits
      have hslots' : ∀ j, k + 1 ≤ j → j < f.blocks.length →
          SlotsLabelled plan L₁ (f.layoutScan j) j c.ids.value := by
        intro j hj hlen i slot param hslot hparam
        obtain ⟨hlt, hL⟩ := hslots j (Nat.le_of_succ_le hj) hlen i slot param hslot hparam
        exact ⟨hlt.trans_le hbuilt.grows.value, (hbuilt.grows.label _ hlt).trans hL⟩
      have hmirs' : f.blocks.drop (k + 1) = mirs := by
        rw [← List.tail_drop, hmirs, List.tail_cons]
      obtain ⟨L₂, hfits', hgrows, hemitted, hparams⟩ := ih hmirs' hfits hslots' hd
      refine ⟨L₂, hfits', hbuilt.grows.trans hgrows, ?_, ?_⟩
      · intro block' hblock' i hi
        rcases List.mem_cons.mp hblock' with rfl | hblock'
        · exact hgrows.emitted (hbuilt.emitted i hi)
        · exact hemitted block' hblock' i hi
      · intro j block' hblock'
        cases j with
        | zero =>
            obtain rfl : block = block' := by simpa using hblock'
            exact ⟨hk, hbuilt.params⟩
        | succ j =>
            have hj := hparams j block' (by simpa using hblock')
            rwa [Nat.add_assoc, Nat.add_comm 1 j] at hj

end Blocks

end CalcKernel
