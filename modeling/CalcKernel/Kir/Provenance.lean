import CalcKernel.Kir.Activation

/-!
# Provenance of addresses

Which parameter, raw slice or subslice value an address was derived from, followed
along the events of an activation, and the regions that denote it.  A labelling
of values by regions that every instruction respects is sound for provenance.
-/

namespace CalcKernel

/-- The value an address was derived from.  An address that was loaded or handed back by a call
is of unknown provenance; an unassigned local and an argument that is no pointer hold none. -/
inductive Provenance where
  | noAddress
  | unknown
  | derived (origin : ValueId)
deriving DecidableEq, Repr

abbrev ProvenanceEnv := ValueId → Provenance

/-- The address an index place goes through is the pointer its base holds; it is followed when
the base is an SSA value. -/
def KirPlace.provenance (P : ProvenanceEnv) : KirPlace → Provenance
  | .value v _ _ | .deref v _ _ | .sliceIndex v _ _ _ => P v
  | .field base _ _ _ => base.provenance P
  | .index (.value v _ _) _ _ _ => P v
  | .index _ _ _ _ => .unknown

/-- The provenance of a result `x`. -/
def KirInstructionKind.provenance (P : ProvenanceEnv) (x : ValueId) :
    KirInstructionKind → Provenance
  | .undef _ => .noAddress
  | .copy v | .sliceData v => P v
  | .makeSlice _ _ | .subslice _ _ _ => .derived x
  | .address place => place.provenance P
  | _ => .unknown

namespace ProvenanceEnv

def assign (P : ProvenanceEnv) : List (ValueId × Provenance) → ProvenanceEnv
  | [] => P
  | (v, q) :: rest => assign (Function.update P v q) rest

def execute (P : ProvenanceEnv) (i : KirInstruction) : ProvenanceEnv := fun v ↦
  if v ∈ i.defs then i.kind.provenance P v else P v

def follow (P : ProvenanceEnv) (edge : KirEdge) (b : KirBlock) : ProvenanceEnv :=
  P.assign ((b.params.map (·.value)).zip (edge.args.map P))

/-- Pointer and slice arguments are derived from their own parameter. -/
def enter (f : KirFunction) : ProvenanceEnv := fun v ↦
  match f.params.find? (·.value = v) with
  | none => .noAddress
  | some p =>
      match p.typeNode with
      | .pointer _ | .slice _ => .derived v
      | _ => .noAddress

def after : Event → ProvenanceEnv → ProvenanceEnv
  | .enter f, _ => enter f
  | .execute i, P => P.execute i
  | .follow edge b, P => P.follow edge b

end ProvenanceEnv

/-- The provenance of every value at the end of a past. -/
def provenanceOf : List Moment → ProvenanceEnv
  | [] => fun _ ↦ .noAddress
  | moment :: past => ProvenanceEnv.after moment.event (provenanceOf past)

/-- The region `r` denotes the storage of an address with this provenance: it is the conservative
region, or the region of the value the address was derived from or an ancestor of that region. -/
def KirFunction.Denotes (f : KirFunction) (r : MemoryRegionId) : Provenance → Prop
  | .noAddress => True
  | .unknown => f.IsConservative r
  | .derived v => f.IsConservative r ∨
      ∃ region ∈ f.regions, region.origin.value? = some v ∧ f.Within region.id r

/-- A place and the places it is built from. -/
def KirPlace.places : KirPlace → List KirPlace
  | .value v type r => [.value v type r]
  | .deref p type r => [.deref p type r]
  | .index base i type r => .index base i type r :: base.places
  | .sliceIndex s i type r => [.sliceIndex s i type r]
  | .field base name type r => .field base name type r :: base.places

def KirInstructionKind.places : KirInstructionKind → List KirPlace
  | .address place | .load place | .store place _ => place.places
  | _ => []

/-! ## Labellings -/

abbrev Labelling := ValueId → MemoryRegionId

section Labelling

variable (conservative : MemoryRegionId) (L : Labelling) (regions : List KirMemoryRegion)

def KirPlace.isValue : KirPlace → Bool
  | .value _ _ _ => true
  | _ => false

/-- The region recorded on a place is the label of the value the place starts from. -/
def KirPlace.Labelled : KirPlace → Prop
  | .value v _ r | .deref v _ r | .sliceIndex v _ _ r => r = L v
  | .field base _ _ r => base.Labelled ∧ r = base.region
  | .index base _ _ r =>
      base.Labelled ∧ r = base.region ∧ (base.isValue = false → r = conservative)

/-- Some region with the label of `x` originates from `v`. -/
def Originates (r : MemoryRegionId) (v : ValueId) : Prop :=
  ∃ region ∈ regions, region.id = r ∧ region.origin.value? = some v

def KirInstruction.Labelled (i : KirInstruction) : Prop :=
  ∀ x ∈ i.defs,
    match i.kind with
    | .undef _ => True
    | .copy v | .sliceData v => L x = L v
    | .makeSlice _ _ | .subslice _ _ _ => Originates regions (L x) x
    | .address place => L x = place.region
    | _ => L x = conservative

/-- The provenance of a value is what its label stands for. -/
def Sound (P : ProvenanceEnv) : Prop :=
  ∀ v, L v = conservative ∨ P v = .noAddress ∨ ∃ o, P v = .derived o ∧ Originates regions (L v) o

end Labelling

section Soundness

variable {conservative : MemoryRegionId} {L : Labelling} {regions : List KirMemoryRegion}
variable {P : ProvenanceEnv}

/-- A place shares the fate of the values it starts from. -/
theorem KirPlace.sound_of_labelled (hP : Sound conservative L regions P) {place : KirPlace}
    (h : place.Labelled conservative L) :
    place.region = conservative ∨ place.provenance P = .noAddress ∨
      ∃ o, place.provenance P = .derived o ∧ Originates regions place.region o := by
  induction place with
  | value v _ r | deref v _ r | sliceIndex v _ _ r =>
      have hr : r = L v := h
      simpa [region, provenance, hr] using hP v
  | field base _ _ r ih =>
      obtain ⟨hbase, hr⟩ := h
      simpa [region, provenance, hr] using ih hbase
  | index base _ _ r ih =>
      obtain ⟨hbase, hr, hvalue⟩ := h
      cases base with
      | value v _ r' =>
          have hv : r' = L v := hbase
          have hr' : r = L v := hr.trans hv
          simpa [region, provenance, hr'] using hP v
      | deref | index | sliceIndex | field => exact .inl (hvalue rfl)

theorem KirPlace.labelled_of_mem_places {place : KirPlace} (h : place.Labelled conservative L)
    {p : KirPlace} (hp : p ∈ place.places) : p.Labelled conservative L := by
  induction place with
  | value | deref | sliceIndex =>
      obtain rfl := List.mem_singleton.mp hp
      exact h
  | field base _ _ _ ih | index base _ _ _ ih =>
      rcases List.mem_cons.mp hp with rfl | hp
      · exact h
      · exact ih h.1 hp

theorem Sound.execute (hP : Sound conservative L regions P) {i : KirInstruction}
    (hi : i.Labelled conservative L regions)
    (hplaces : ∀ place ∈ i.kind.places, place.Labelled conservative L) :
    Sound conservative L regions (P.execute i) := by
  intro v
  by_cases hv : v ∈ i.defs
  case neg => simpa only [ProvenanceEnv.execute, if_neg hv] using hP v
  case pos =>
    simp only [ProvenanceEnv.execute, if_pos hv]
    have hlabel := hi v hv
    cases hk : i.kind with
    | undef => exact .inr (.inl rfl)
    | copy w | sliceData w =>
        rw [hk] at hlabel
        have hw := hP w
        rw [← show L v = L w from hlabel] at hw
        exact hw
    | makeSlice | subslice =>
        rw [hk] at hlabel
        exact .inr (.inr ⟨v, rfl, hlabel⟩)
    | address place =>
        rw [hk] at hlabel hplaces
        have hplace : place.Labelled conservative L := by
          refine hplaces place ?_
          cases place <;> simp [KirInstructionKind.places, KirPlace.places]
        have hsound := KirPlace.sound_of_labelled hP hplace
        rw [← show L v = place.region from hlabel] at hsound
        exact hsound
    | _ =>
        rw [hk] at hlabel
        exact .inl hlabel

theorem ProvenanceEnv.assign_eq (l : List (ValueId × Provenance)) (v : ValueId) :
    P.assign l v = P v ∨ (v, P.assign l v) ∈ l := by
  induction l generalizing P with
  | nil => exact .inl rfl
  | cons p l ih =>
      obtain ⟨w, q⟩ := p
      rcases ih (P := Function.update P w q) with h | h
      · by_cases hvw : v = w
        · subst hvw
          refine .inr (List.mem_cons.mpr (.inl ?_))
          rw [assign, h, Function.update_self]
        · exact .inl (by rw [assign, h, Function.update_of_ne hvw])
      · exact .inr (List.mem_cons_of_mem _ h)

/-- Passing an edge keeps the labelling sound when each argument carries what its parameter is
labelled with. -/
theorem Sound.follow (hP : Sound conservative L regions P) {edge : KirEdge} {b : KirBlock}
    (h : ∀ (j : Nat) (param : KirBlockParam) (arg : ValueId), b.params[j]? = some param →
      edge.args[j]? = some arg → L param.value = conservative ∨ P arg = .noAddress ∨
        ∃ o, P arg = .derived o ∧ Originates regions (L param.value) o) :
    Sound conservative L regions (P.follow edge b) := by
  intro v
  rcases ProvenanceEnv.assign_eq (P := P)
    ((b.params.map (·.value)).zip (edge.args.map P)) v with hv | hv
  · rw [ProvenanceEnv.follow, hv]
    exact hP v
  · obtain ⟨j, hj⟩ := List.mem_iff_getElem?.mp hv
    rw [List.getElem?_zip_eq_some, List.getElem?_map, List.getElem?_map] at hj
    obtain ⟨hparam, harg⟩ := hj
    obtain ⟨param, hparam, hvalue⟩ := Option.map_eq_some_iff.mp hparam
    obtain ⟨arg, harg, hprov⟩ := Option.map_eq_some_iff.mp harg
    have hj := h j param arg hparam harg
    rw [hprov, show param.value = v from hvalue] at hj
    exact hj

end Soundness

end CalcKernel
