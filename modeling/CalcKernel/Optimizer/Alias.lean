import Mathlib.Order.CompletePartialOrder
import Mathlib.Data.Set.Lattice
import CalcKernel.Kir.BuilderSsa
import CalcKernel.Kir.Definitions
import CalcKernel.Kir.PlaceRegions
import CalcKernel.Kir.Typing
import CalcKernel.Optimizer.Regions

/-!
# Alias queries

What a `NoAlias` answer says about the bytes that two regions address in an
activation.  Intervals are relative to the slice a region was cut from, so they
separate regions only when both were cut from one base.
-/

namespace CalcKernel

inductive AliasKind where
  | noAlias | mayAlias | mustAlias
deriving DecidableEq, Repr

structure AliasQueryResult where
  kind : AliasKind
  fact : Option FactId
deriving DecidableEq, Repr

def RegionDescriptor.isProvenEmpty (d : RegionDescriptor) : Bool :=
  d.byteInterval.any (·.isProvenEmpty)

/-- The intervals of two descriptors with one root are disjoint. -/
def RegionDescriptor.separates (left right : RegionDescriptor) : Bool :=
  left.root = right.root &&
    match left.byteInterval, right.byteInterval with
    | some l, some r => intervalsAreDisjoint l r
    | _, _ => false

/-- `query_alias`. -/
def queryAlias (analysis : RegionAnalysis) (left right : MemoryRegionId) : AliasQueryResult :=
  if left = right then ⟨.mustAlias, none⟩
  else
    match analysis.descriptor left, analysis.descriptor right with
    | some l, some r =>
        if l.isProvenEmpty || r.isProvenEmpty then ⟨.noAlias, none⟩
        else if l.separates r then ⟨.noAlias, none⟩
        else
          match analysis.noaliasFact l.root r.root with
          | some fact => ⟨.noAlias, some fact⟩
          | none => ⟨.mayAlias, none⟩
    | _, _ => ⟨.mayAlias, none⟩

/-! ## The bytes a region addresses -/

/-- The bytes a descriptor gives access to: the elements of a slice; everything behind a pointer,
which may be indexed at will. -/
def valueBytes (t : TargetModel) (f : KirFunction) (env : Env) (v : ValueId) : Set Int :=
  match env v with
  | some (.slice data len) =>
      {a | ∃ type size, f.valueType? v = some type ∧ elementSize t type = some size ∧
        data ≤ a ∧ a < data + len * size}
  | some (.pointer _) => Set.univ
  | _ => ∅

/-- The bytes that a region has given access to in the course of an activation. -/
def addressed (t : TargetModel) (f : KirFunction) (past : List Moment) (r : MemoryRegionId) :
    Set Int :=
  {a | ∃ region ∈ f.regions, region.id = r ∧
    match region.origin.value? with
    | some v => ∃ moment ∈ past, a ∈ valueBytes t f moment.env v
    | none => True}

/-- Where in an activation a fact of the given scope speaks.  A fact about one call speaks of that
call alone. -/
def FactScope.Covers (scope : FactScope) (f : KirFunction) : Event → Prop
  | .enter _ => scope = .functionEntry f.id
  | .follow _ b =>
      scope = .block f.id b.id ∨ ∃ clone blocks, scope = .inlineClone f.id clone blocks ∧ b.id ∈ blocks
  | .execute _ => False

/-- The activation satisfies the `noalias` facts where they speak. -/
def NoAliasFactsHold (t : TargetModel) (f : KirFunction) (facts : Option FactArena)
    (past : List Moment) : Prop :=
  ∀ arena, facts = some arena → ∀ fact ∈ arena.facts, ∀ l r,
    fact.predicate = .contract (.noAlias l r) → ∀ moment ∈ past,
      fact.scope.Covers f moment.event →
        Disjoint (valueBytes t f moment.env l) (valueBytes t f moment.env r)

theorem noAliasFactsHold_none (t : TargetModel) (f : KirFunction) (past : List Moment) :
    NoAliasFactsHold t f none past := by
  intro arena harena
  cases harena

/-! ## When an answer is grounded -/

/-- The region was cut with these constant bounds. -/
def KirMemoryRegion.HasBounds (f : KirFunction) (region : KirMemoryRegion) (element : MirType)
    (lower upper : Int) : Prop :=
  ∃ iv, region.byteInterval = some iv ∧ iv.elementType = element ∧
    integerConstants f iv.start = some lower ∧ integerConstants f iv.stop = some upper

/-- The region was cut with equal constant bounds. -/
def KirFunction.ProvenEmpty (f : KirFunction) (r : MemoryRegionId) : Prop :=
  ∃ region ∈ f.regions, region.id = r ∧ ∃ element a, region.HasBounds f element a a

/-- The two regions have one root and disjoint constant bounds. -/
def KirFunction.BoundsApart (f : KirFunction) (left right : MemoryRegionId) : Prop :=
  ∃ l ∈ f.regions, ∃ r ∈ f.regions, l.id = left ∧ r.id = right ∧
    (∃ root, f.Within left root ∧ f.Within right root) ∧
    ∃ element a b c d, l.HasBounds f element a b ∧ r.HasBounds f element c d ∧
      a ≤ b ∧ c ≤ d ∧ (b ≤ c ∨ d ≤ a)

/-- The slice that a subslice instruction cuts. -/
def KirInstructionKind.cutSource : KirInstructionKind → Option ValueId
  | .subslice s _ _ => some s
  | _ => none

/-- The base addresses that a subslice value was cut from. -/
def CutFrom (past : List Moment) (x : ValueId) (base : Int) : Prop :=
  ∃ i env older moment s lo hi len, ⟨.execute i, env⟩ :: moment :: older <:+ past ∧ x ∈ i.defs ∧
    i.kind = .subslice s lo hi ∧ moment.env s = some (.slice base len)

/-- Both regions were always cut from one base. -/
def SharedBase (f : KirFunction) (past : List Moment) (left right : MemoryRegionId) : Prop :=
  ∀ l ∈ f.regions, ∀ r ∈ f.regions, l.id = left → r.id = right →
    ∀ x y, l.origin.value? = some x → r.origin.value? = some y →
      ∀ a b, CutFrom past x a → CutFrom past y b → a = b

/-- Every slice made for the region or one of its ancestors lies inside what the recorded parent
gives access to. -/
def CutsInside (t : TargetModel) (f : KirFunction) (past : List Moment) (r : MemoryRegionId) :
    Prop :=
  ∀ i env older, ⟨.execute i, env⟩ :: older <:+ past → ∀ region ∈ f.regions, ∀ x ∈ i.defs,
    f.Within r region.id → region.origin.value? = some x → ∀ p, region.parent = some p →
      valueBytes t f env x ⊆ addressed t f older p

/-- The two values stand for regions under the roots of the two regions, in some order. -/
def KirFunction.SpeaksOf (f : KirFunction) (x y : ValueId) (left right : MemoryRegionId) : Prop :=
  ∃ p q root root', f.StandsFor x p ∧ f.StandsFor y q ∧ f.Within p root ∧ f.Within q root' ∧
    (f.Within left root ∧ f.Within right root' ∨ f.Within left root' ∧ f.Within right root)

/-- Every contract that may answer for the two regions keeps two parameters apart, and has been in
force in the activation. -/
def ContractsOfParameters (f : KirFunction) (facts : Option FactArena) (past : List Moment)
    (left right : MemoryRegionId) : Prop :=
  ∀ arena, facts = some arena → ∀ fact ∈ arena.facts, fact.scope.appliesTo f.id → ∀ x y,
    fact.predicate = .contract (.noAlias x y) → f.SpeaksOf x y left right →
      x ∈ f.params.map (·.value) ∧ y ∈ f.params.map (·.value) ∧
        ∃ moment ∈ past, fact.scope.Covers f moment.event

/-- What must hold beyond the answer itself.  Intervals answer for regions cut from one base only;
a contract answers for the parameters it names only, and for what was made inside them. -/
def AnswerGrounded (t : TargetModel) (f : KirFunction) (facts : Option FactArena)
    (past : List Moment) (left right : MemoryRegionId) : Prop :=
  f.ProvenEmpty left ∨ f.ProvenEmpty right ∨
  f.BoundsApart left right ∧ SharedBase f past left right ∨
  ¬ f.BoundsApart left right ∧ ContractsOfParameters f facts past left right ∧
    CutsInside t f past left ∧ CutsInside t f past right

/-! ## Soundness -/

section Execution

variable {t : TargetModel} {f : KirFunction} {past : List Moment} {frame : Frame}
variable {memory : Memory}

theorem intOperand_eq_some {env : Env} {v : ValueId} {n : Int} (h : intOperand env v = some n) :
    ∃ type, env v = some (.int type n) := by
  unfold intOperand at h
  split at h
  · rename_i type x hv
    cases h
    exact ⟨type, hv⟩
  · cases h

theorem sliceOperand_eq_some {env : Env} {v : ValueId} {p : Int × Int}
    (h : sliceOperand env v = some p) : env v = some (.slice p.1 p.2) := by
  unfold sliceOperand at h
  split at h
  · rename_i data len hv
    cases h
    exact hv
  · cases h

theorem bindResults_single {env env' : Env} {r : KirResult} {x : KirValue}
    (h : env.bindResults [r] [x] = some env') : env' r.value = some x := by
  simp only [Env.bindResults, List.length_singleton, le_refl, if_true, Option.some.injEq] at h
  subst h
  simp [Env.setAll]

/-- What a constant instruction binds. -/
theorem executeInstruction_constInt {env env' : Env} {m m' : Memory} {i : KirInstruction}
    {printed : List Printed} {text : String} {v : ValueId} {rest : List ValueId}
    (hkind : i.kind = .constInt text) (hdefs : i.defs = v :: rest)
    (h : executeInstruction t env m i = some (.next env' m' printed)) :
    ∃ type n, parseInteger text = some n ∧ env' v = some (.int type n) := by
  unfold executeInstruction at h
  rw [hkind] at h
  obtain ⟨xs, hxs, h⟩ := Option.bind_eq_some_iff.mp h
  obtain ⟨e, hbind, h⟩ := Option.map_eq_some_iff.mp h
  cases h
  simp only [evalInstruction, hkind] at hxs
  obtain ⟨r, _, hxs⟩ := Option.bind_eq_some_iff.mp hxs
  obtain ⟨x, hx, rfl⟩ := Option.map_eq_some_iff.mp hxs
  obtain ⟨type, _, hx⟩ := Option.bind_eq_some_iff.mp hx
  obtain ⟨n, hn, hx⟩ := Option.bind_eq_some_iff.mp hx
  split at hx
  · cases hx
    cases hresults : i.results with
    | nil => rw [KirInstruction.defs, hresults] at hdefs; cases hdefs
    | cons r' results =>
        rw [KirInstruction.defs, hresults, List.map_cons] at hdefs
        obtain ⟨hv, hrest⟩ := List.cons.inj hdefs
        have hnil : results = [] := by
          unfold Env.bindResults at hbind
          rw [hresults] at hbind
          split at hbind
          · rename_i hlen
            simpa using hlen
          · cases hbind
        rw [hresults, hnil] at hbind
        exact ⟨type, n, hn, hv ▸ bindResults_single hbind⟩
  · cases hx

/-- What a subslice instruction binds. -/
theorem executeInstruction_subslice {env env' : Env} {m m' : Memory} {i : KirInstruction}
    {printed : List Printed} {s lo hi x : ValueId} {element : MirType}
    (hkind : i.kind = .subslice s lo hi) (hresults : i.results = [⟨x, .scalar (.slice element)⟩])
    (h : executeInstruction t env m i = some (.next env' m' printed)) :
    ∃ base len a b, env s = some (.slice base len) ∧ (∃ type, env lo = some (.int type a)) ∧
      (∃ type, env hi = some (.int type b)) ∧
      env' x = some (.slice (base + a * t.sizeOf element) (IntegerType.u32.wrap (b - a))) := by
  unfold executeInstruction at h
  rw [hkind] at h
  obtain ⟨xs, hxs, h⟩ := Option.bind_eq_some_iff.mp h
  obtain ⟨e, hbind, h⟩ := Option.map_eq_some_iff.mp h
  cases h
  simp only [evalInstruction, hkind, hresults, List.head?_cons, Option.bind_some,
    elementSize] at hxs
  obtain ⟨p, hp, hxs⟩ := Option.bind_eq_some_iff.mp hxs
  obtain ⟨a, ha, hxs⟩ := Option.bind_eq_some_iff.mp hxs
  obtain ⟨b, hb, rfl⟩ := Option.map_eq_some_iff.mp hxs
  rw [hresults] at hbind
  exact ⟨p.1, p.2, a, b, sliceOperand_eq_some hp, intOperand_eq_some ha, intOperand_eq_some hb,
    bindResults_single hbind⟩

/-- A constant value holds its constant whenever it holds an integer. -/
theorem Activation.constant_env (h : Activation t f past frame memory) (hssa : f.valueIds.Nodup)
    {v : ValueId} {n : Int} (hn : integerConstants f v = some n) {type : IntegerType} {x : Int}
    (hv : frame.env v = some (.int type x)) : x = n := by
  obtain ⟨i, hi, text, rest, hkind, hdefs, hparse⟩ := integerConstants_spec hn
  obtain ⟨env, older, hsuffix, henv⟩ :=
    h.result_at hssa hi (hdefs ▸ List.mem_cons_self) rfl hv
  obtain ⟨frame', memory', rest', _, _, _, hexec⟩ := h.before_execute hsuffix
  rcases hexec with ⟨_, _, hexec⟩ | ⟨name, args, values, hcall, _⟩
  · obtain ⟨type', m, hm, hvalue⟩ := executeInstruction_constInt hkind hdefs hexec
    rw [henv] at hvalue
    cases hvalue
    rw [hparse] at hm
    cases hm
    rfl
  · rw [hkind] at hcall
    cases hcall

theorem valueBytes_some {env : Env} {x : ValueId} {z : Int} (h : z ∈ valueBytes t f env x) :
    ∃ v, env x = some v ∧ v.isRecord = false := by
  unfold valueBytes at h
  split at h
  · rename_i hv
    exact ⟨_, hv, rfl⟩
  · rename_i hv
    exact ⟨_, hv, rfl⟩
  · cases h

theorem valueBytes_congr {env env' : Env} {x : ValueId} (h : env x = env' x) :
    valueBytes t f env x = valueBytes t f env' x := by
  unfold valueBytes
  rw [h]

/-- A result has had its bytes since the newest run of its instruction. -/
theorem Activation.result_bytes (h : Activation t f past frame memory) (hssa : f.valueIds.Nodup)
    {i : KirInstruction} (hi : i ∈ f.instructions) {x : ValueId} (hx : x ∈ i.defs)
    {moment : Moment} (hmem : moment ∈ past) {z : Int} (hz : z ∈ valueBytes t f moment.env x) :
    ∃ env older, ⟨.execute i, env⟩ :: older <:+ past ∧ z ∈ valueBytes t f env x := by
  obtain ⟨older, frame', memory', hsuffix, hact, henv⟩ := h.moment_of_mem hmem
  obtain ⟨v, hv, hrecord⟩ := valueBytes_some hz
  obtain ⟨env, older', hsuffix', hvalue⟩ := hact.result_at hssa hi hx hrecord (henv ▸ hv)
  exact ⟨env, older', hsuffix'.trans hsuffix, valueBytes_congr (hv.trans hvalue.symm) ▸ hz⟩

/-- The bytes of a subslice, by its base and its bounds. -/
theorem Activation.subslice_bytes (h : Activation t f past frame memory)
    (hssa : f.valueIds.Nodup) {i : KirInstruction} (hi : i ∈ f.instructions)
    {s lo hi' x : ValueId} {element : MirType} (hkind : i.kind = .subslice s lo hi')
    (hresults : i.results = [⟨x, .scalar (.slice element)⟩]) {a b : Int}
    (ha : integerConstants f lo = some a) (hb : integerConstants f hi' = some b)
    {moment : Moment} (hmem : moment ∈ past) {z : Int} (hz : z ∈ valueBytes t f moment.env x) :
    ∃ base, CutFrom past x base ∧ base + a * t.sizeOf element ≤ z ∧
      z < base + a * t.sizeOf element + IntegerType.u32.wrap (b - a) * t.sizeOf element := by
  have hdef : x ∈ i.defs := by simp [KirInstruction.defs, hresults]
  obtain ⟨env, older, hsuffix, hz⟩ := h.result_bytes hssa hi hdef hmem hz
  obtain ⟨frame', memory', _, hact, _, ⟨event, older', rfl⟩, hexec⟩ := h.before_execute hsuffix
  rcases hexec with ⟨_, _, hexec⟩ | ⟨_, _, _, hcall, _⟩
  case inr => rw [hkind] at hcall; cases hcall
  obtain ⟨base, len, a', b', hs, ⟨_, hlo⟩, ⟨_, hhi⟩, hvalue⟩ :=
    executeInstruction_subslice hkind hresults hexec
  obtain rfl := hact.constant_env hssa ha hlo
  obtain rfl := hact.constant_env hssa hb hhi
  simp only [valueBytes, hvalue, Set.mem_ofPred_eq] at hz
  obtain ⟨type, size, htype, hsize, hlower, hupper⟩ := hz
  obtain rfl : KirValueType.scalar (.slice element) = type := by
    have hresult : (⟨x, .scalar (.slice element)⟩ : KirResult) ∈ i.results := by simp [hresults]
    have := KirFunction.valueType?_of_result hssa hi hresult
    exact Option.some.inj (this.symm.trans htype)
  cases hsize
  exact ⟨base, ⟨i, env, older', _, s, lo, hi', len, hsuffix, hdef, hkind, hs⟩, hlower, hupper⟩

end Execution

section Built

variable {t : TargetModel} {f : KirFunction} {past : List Moment} {frame : Frame}
variable {memory : Memory}

theorem BuiltSsa.region_unique (hssa : BuiltSsa f) {r r' : KirMemoryRegion} (hr : r ∈ f.regions)
    (hr' : r' ∈ f.regions) (hid : r.id = r'.id) : r = r' :=
  List.inj_on_of_nodup_map hssa.regionIds hr hr' hid

theorem mem_addressed (hssa : BuiltSsa f) {region : KirMemoryRegion} (hr : region ∈ f.regions)
    {x : ValueId} (hx : region.origin.value? = some x) {z : Int} :
    z ∈ addressed t f past region.id ↔ ∃ moment ∈ past, z ∈ valueBytes t f moment.env x := by
  constructor
  · rintro ⟨region', hr', hid, hz⟩
    obtain rfl := hssa.region_unique hr' hr hid
    rwa [hx] at hz
  · intro hz
    exact ⟨region, hr, rfl, by rwa [hx]⟩

/-- A slice at hand gives access to its elements. -/
theorem mem_addressed_of_slice (h : Activation t f past frame memory) {r : MemoryRegionId}
    {x : ValueId} (hr : ∃ region ∈ f.regions, region.id = r ∧ region.origin.value? = some x)
    {data len : Int} (hv : frame.env x = some (.slice data len)) {element : MirType}
    (htype : f.valueType? x = some (.scalar (.slice element))) {z : Int} (hlower : data ≤ z)
    (hupper : z < data + len * t.sizeOf element) : z ∈ addressed t f past r := by
  obtain ⟨region, hmem, hid, hx⟩ := hr
  obtain ⟨event, older, rfl⟩ := h.env_eq
  refine ⟨region, hmem, hid, ?_⟩
  simp only [hx]
  refine ⟨_, List.mem_cons_self, ?_⟩
  simp only [valueBytes, hv]
  exact ⟨_, _, htype, rfl, hlower, hupper⟩

theorem addressed_mono {older : List Moment} (h : older <:+ past) (r : MemoryRegionId) :
    addressed t f older r ⊆ addressed t f past r := by
  rintro z ⟨region, hr, hid, hz⟩
  refine ⟨region, hr, hid, ?_⟩
  split
  · rename_i x hx
    simp only [hx] at hz
    obtain ⟨moment, hmem, hz⟩ := hz
    exact ⟨moment, h.subset hmem, hz⟩
  · trivial

/-- The bytes addressed through a region with constant bounds. -/
theorem BuiltSsa.bounds_bytes (hssa : BuiltSsa f) (h : Activation t f past frame memory)
    {region : KirMemoryRegion} (hr : region ∈ f.regions) {element : MirType} {a b : Int}
    (hbounds : region.HasBounds f element a b) {z : Int}
    (hz : z ∈ addressed t f past region.id) :
    ∃ x base, region.origin.value? = some x ∧ CutFrom past x base ∧
      base + a * t.sizeOf element ≤ z ∧
      z < base + a * t.sizeOf element + IntegerType.u32.wrap (b - a) * t.sizeOf element := by
  obtain ⟨iv, hiv, rfl, ha, hb⟩ := hbounds
  obtain ⟨x, s, horigin, i, hi, hkind, hresults⟩ := (hssa.matched region hr).interval iv hiv
  have hx : region.origin.value? = some x := by rw [horigin]; rfl
  obtain ⟨moment, hmem, hz⟩ := (mem_addressed hssa hr hx).mp hz
  obtain ⟨base, hcut, hlower, hupper⟩ :=
    h.subslice_bytes hssa.nodup hi hkind hresults ha hb hmem hz
  exact ⟨x, base, hx, hcut, hlower, hupper⟩

/-- A region with equal constant bounds addresses nothing. -/
theorem BuiltSsa.addressed_empty (hssa : BuiltSsa f) (h : Activation t f past frame memory)
    {r : MemoryRegionId} (hempty : f.ProvenEmpty r) : addressed t f past r = ∅ := by
  obtain ⟨region, hr, rfl, element, a, hbounds⟩ := hempty
  refine Set.eq_empty_of_forall_notMem fun z hz ↦ ?_
  obtain ⟨_, base, _, _, hlower, hupper⟩ := hssa.bounds_bytes h hr hbounds hz
  rw [Int.sub_self, show IntegerType.u32.wrap 0 = 0 from rfl] at hupper
  omega

/-- Regions cut from one base with disjoint constant bounds address disjoint bytes. -/
theorem BuiltSsa.disjoint_of_bounds (hssa : BuiltSsa f) (h : Activation t f past frame memory)
    {left right : MemoryRegionId} (happart : f.BoundsApart left right)
    (hbase : SharedBase f past left right) :
    Disjoint (addressed t f past left) (addressed t f past right) := by
  obtain ⟨l, hl, r, hr, rfl, rfl, _, element, a, b, c, d, hlb, hrb, hab, hcd, hapart⟩ := happart
  refine Set.disjoint_left.mpr fun z hzl hzr ↦ ?_
  obtain ⟨x, base, hx, hcut, hlower, hupper⟩ := hssa.bounds_bytes h hl hlb hzl
  obtain ⟨y, base', hy, hcut', hlower', hupper'⟩ := hssa.bounds_bytes h hr hrb hzr
  obtain rfl := hbase l hl r hr rfl rfl x y hx hy base base' hcut hcut'
  have hends : ∀ {lo hi next : Int}, lo ≤ hi → hi ≤ next → base + lo * t.sizeOf element +
      IntegerType.u32.wrap (hi - lo) * t.sizeOf element ≤ base + next * t.sizeOf element := by
    intro lo hi next hlo hnext
    have hwrap : IntegerType.u32.wrap (hi - lo) ≤ hi - lo := by
      rw [IntegerType.wrap_of_unsigned rfl]
      simp only [IntegerType.modulus]
      omega
    nlinarith [Int.natCast_nonneg (t.sizeOf element)]
  rcases hapart with hbc | hda
  · exact absurd (hupper.trans_le ((hends hab hbc).trans hlower')) (lt_irrefl z)
  · exact absurd (hupper'.trans_le ((hends hcd hda).trans hlower)) (lt_irrefl z)

/-- The region was cut from the value `s`. -/
def KirFunction.CutOf (f : KirFunction) (s : ValueId) (r : MemoryRegionId) : Prop :=
  ∀ region ∈ f.regions, region.id = r → ∀ x ∈ region.origin.value?,
    ∀ i ∈ f.instructions, x ∈ i.defs → i.kind.cutSource = some s

/-- Regions cut from one parameter are always cut from one base. -/
theorem BuiltSsa.sharedBase_of_param (hssa : BuiltSsa f) (h : Activation t f past frame memory)
    {s : ValueId} (hs : s ∈ f.params.map (·.value)) {left right : MemoryRegionId}
    (hleft : f.CutOf s left) (hright : f.CutOf s right) : SharedBase f past left right := by
  have hcut : ∀ {r x base}, f.CutOf s r → (∃ region ∈ f.regions, region.id = r ∧
      region.origin.value? = some x) → CutFrom past x base →
        ∃ moment ∈ past, ∃ len, moment.env s = some (.slice base len) := by
    rintro r x base hr ⟨region, hmem, hid, hx⟩ ⟨i, env, older, moment, u, lo, hi, len, hsuffix,
      hdef, hkind, hvalue⟩
    have hu := hr region hmem hid x hx i (h.execute_mem hsuffix) hdef
    rw [hkind] at hu
    cases hu
    exact ⟨moment, hsuffix.subset (List.mem_cons_of_mem _ List.mem_cons_self), len, hvalue⟩
  intro l hl r hr hidl hidr x y hx hy a b hcutl hcutr
  obtain ⟨m, hm, len, hvalue⟩ := hcut hleft ⟨l, hl, hidl, hx⟩ hcutl
  obtain ⟨m', hm', len', hvalue'⟩ := hcut hright ⟨r, hr, hidr, hy⟩ hcutr
  have hsame := h.param_same hssa.nodup hs rfl hm hm' hvalue
  rw [hvalue'] at hsame
  cases hsame
  rfl

/-- What is addressed through a region was addressed through its ancestors. -/
theorem BuiltSsa.addressed_within (hssa : BuiltSsa f) (h : Activation t f past frame memory)
    {r root : MemoryRegionId} (hwithin : f.Within r root) (hinside : CutsInside t f past r) :
    addressed t f past r ⊆ addressed t f past root := by
  induction hwithin with
  | self => exact fun _ hz ↦ hz
  | @parent q p root region hr hid hparent hp ih =>
      subst hid
      refine Set.Subset.trans ?_ (ih ?_)
      · intro z hz
        obtain ⟨x, hx, i, hi, hdefs, _⟩ := (hssa.matched region hr).parent p hparent
        have hdef : x ∈ i.defs := by simp [hdefs]
        obtain ⟨moment, hmem, hz⟩ := (mem_addressed hssa hr hx).mp hz
        obtain ⟨env, older, hsuffix, hz⟩ := h.result_bytes hssa.nodup hi hdef hmem hz
        have hin := hinside i env older hsuffix region hr x hdef (.self _) hx p hparent hz
        exact addressed_mono ((List.suffix_cons _ _).trans hsuffix) p hin
      · intro i env older hsuffix region' hr' x hx hwithin' horigin p' hparent'
        exact hinside i env older hsuffix region' hr' x hx (.parent hr rfl hparent hwithin')
          horigin p' hparent'

/-- The region a parameter stands for is a root that originates from it. -/
theorem BuiltSsa.param_region (hssa : BuiltSsa f) {x : ValueId}
    (hx : x ∈ f.params.map (·.value)) {p root : MemoryRegionId} (hp : f.StandsFor x p)
    (hroot : f.Within p root) :
    ∃ region ∈ f.regions, region.id = root ∧ region.origin.value? = some x := by
  cases hp with
  | source hi hdef => exact absurd hx (KirFunction.param_notMem_defs hssa.nodup hi hdef)
  | @origin _ region hr horigin =>
      generalize hid : region.id = q at hroot
      cases hroot with
      | self => exact ⟨region, hr, hid, horigin⟩
      | parent hr' hid' hparent _ =>
          obtain rfl := hssa.region_unique hr' hr (hid'.trans hid.symm)
          obtain ⟨y, hy, i, hi, hdefs, _⟩ := (hssa.matched _ hr').parent _ hparent
          obtain rfl : x = y := Option.some.inj (horigin.symm.trans hy)
          exact absurd hx (KirFunction.param_notMem_defs hssa.nodup hi (by simp [hdefs]))

/-- What is addressed under the root of a parameter are bytes of the parameter. -/
theorem BuiltSsa.addressed_param (hssa : BuiltSsa f) (h : Activation t f past frame memory)
    {x : ValueId} (hx : x ∈ f.params.map (·.value)) {p root r : MemoryRegionId}
    (hp : f.StandsFor x p) (hroot : f.Within p root) (hwithin : f.Within r root)
    (hinside : CutsInside t f past r) {moment : Moment} (hmem : moment ∈ past) :
    addressed t f past r ⊆ valueBytes t f moment.env x := by
  obtain ⟨region, hr, rfl, horigin⟩ := hssa.param_region hx hp hroot
  intro z hz
  obtain ⟨moment', hmem', hz⟩ :=
    (mem_addressed hssa hr horigin).mp (hssa.addressed_within h hwithin hinside hz)
  obtain ⟨v, hv, hrecord⟩ := valueBytes_some hz
  have hsame := h.param_same hssa.nodup hx hrecord hmem' hmem hv
  exact valueBytes_congr (hv.trans hsame.symm) ▸ hz

/-- Regions kept apart by contracts of parameters address disjoint bytes. -/
theorem BuiltSsa.disjoint_of_contract (hssa : BuiltSsa f) (h : Activation t f past frame memory)
    {facts : Option FactArena} (hfacts : NoAliasFactsHold t f facts past)
    {left right : MemoryRegionId} (hparams : ContractsOfParameters f facts past left right)
    (hleft : CutsInside t f past left) (hright : CutsInside t f past right)
    {arena : FactArena} (harena : facts = some arena) {fact : Fact} (hfact : fact ∈ arena.facts)
    (happlies : fact.scope.appliesTo f.id) {x y : ValueId}
    (hpredicate : fact.predicate = .contract (.noAlias x y))
    (hspeaks : f.SpeaksOf x y left right) :
    Disjoint (addressed t f past left) (addressed t f past right) := by
  obtain ⟨hx, hy, moment, hmem, hcovers⟩ :=
    hparams arena harena fact hfact happlies x y hpredicate hspeaks
  have hapart := hfacts arena harena fact hfact x y hpredicate moment hmem hcovers
  obtain ⟨p, q, root, root', hxp, hyq, hp, hq, ⟨hl, hr⟩ | ⟨hl, hr⟩⟩ := hspeaks
  · exact hapart.mono (hssa.addressed_param h hx hxp hp hl hleft hmem)
      (hssa.addressed_param h hy hyq hq hr hright hmem)
  · exact hapart.symm.mono (hssa.addressed_param h hy hyq hq hl hleft hmem)
      (hssa.addressed_param h hx hxp hp hr hright hmem)

end Built

/-! ## Answers -/

section Answers

variable {f : KirFunction} {rounds : Nat} {facts : Option FactArena} {analysis : RegionAnalysis}

theorem RegionDescriptor.isProvenEmpty_spec
    (h : analyzeRegions rounds f facts = some (.ok analysis)) {r : MemoryRegionId}
    {d : RegionDescriptor} (hd : analysis.descriptor r = some d) (hempty : d.isProvenEmpty) :
    ∃ region ∈ f.regions, region.id = r ∧ ∃ element a, region.HasBounds f element a a := by
  obtain ⟨region, hr, hid, _, hinterval⟩ := analyzeRegions_descriptor h hd
  refine ⟨region, hr, hid, ?_⟩
  rw [RegionDescriptor.isProvenEmpty, hinterval] at hempty
  cases hiv : region.byteInterval with
  | none => simp [hiv] at hempty
  | some iv =>
      simp only [hiv, Option.map_some, Option.any_some, SymbolicByteInterval.isProvenEmpty,
        Bool.and_eq_true, beq_iff_eq] at hempty
      obtain ⟨a, ha⟩ := Option.isSome_iff_exists.mp hempty.1
      exact ⟨iv.elementType, a, iv, hiv, rfl, ha, hempty.2 ▸ ha⟩

theorem RegionDescriptor.separates_spec
    (h : analyzeRegions rounds f facts = some (.ok analysis)) {left right : MemoryRegionId}
    {l r : RegionDescriptor} (hl : analysis.descriptor left = some l)
    (hr : analysis.descriptor right = some r) (hseparates : l.separates r) :
    f.BoundsApart left right := by
  obtain ⟨region, hregion, hid, hwithin, hinterval⟩ := analyzeRegions_descriptor h hl
  obtain ⟨region', hregion', hid', hwithin', hinterval'⟩ := analyzeRegions_descriptor h hr
  simp only [RegionDescriptor.separates, Bool.and_eq_true, decide_eq_true_eq] at hseparates
  obtain ⟨hroot, hapart⟩ := hseparates
  split at hapart
  case h_2 => cases hapart
  case h_1 li ri hli hri =>
  rw [hinterval] at hli
  rw [hinterval'] at hri
  obtain ⟨iv, hiv, rfl⟩ := Option.map_eq_some_iff.mp hli
  obtain ⟨iv', hiv', rfl⟩ := Option.map_eq_some_iff.mp hri
  obtain ⟨htype, a, b, c, d, ha, hb, hc, hd, hab, hcd, hapart⟩ := intervalsAreDisjoint_spec hapart
  exact ⟨region, hregion, region', hregion', hid, hid', ⟨l.root, hwithin, hroot ▸ hwithin'⟩,
    iv.elementType, a, b, c, d, ⟨iv, hiv, rfl, ha, hb⟩, ⟨iv', hiv', htype.symm, hc, hd⟩,
    hab, hcd, hapart⟩

/-- What a `NoAlias` answer rests on: an empty region, bounds, or a contract. -/
theorem queryAlias_noAlias (h : analyzeRegions rounds f facts = some (.ok analysis))
    {left right : MemoryRegionId} (hquery : (queryAlias analysis left right).kind = .noAlias) :
    f.ProvenEmpty left ∨ f.ProvenEmpty right ∨ f.BoundsApart left right ∨
    ∃ arena, facts = some arena ∧ ∃ fact ∈ arena.facts, fact.scope.appliesTo f.id ∧
      ∃ x y, fact.predicate = .contract (.noAlias x y) ∧ f.SpeaksOf x y left right := by
  unfold queryAlias at hquery
  split at hquery
  case isTrue => cases hquery
  split at hquery
  case h_2 => cases hquery
  case h_1 l r hl hr =>
  split at hquery
  case isTrue hempty =>
    rcases Bool.or_eq_true_iff.mp hempty with hempty | hempty
    · exact .inl (RegionDescriptor.isProvenEmpty_spec h hl hempty)
    · exact .inr (.inl (RegionDescriptor.isProvenEmpty_spec h hr hempty))
  split at hquery
  case isTrue hseparates =>
    exact .inr (.inr (.inl (RegionDescriptor.separates_spec h hl hr hseparates)))
  split at hquery
  case h_2 => cases hquery
  case h_1 id hfact =>
  obtain ⟨_, _, _, hlroot, _⟩ := analyzeRegions_descriptor h hl
  obtain ⟨_, _, _, hrroot, _⟩ := analyzeRegions_descriptor h hr
  obtain ⟨arena, harena, fact, hmem, happlies, x, y, hpredicate, p, q, root, root', hxp, hyq, hp,
    hq, hroots⟩ := analyzeRegions_noaliasFact h hfact
  refine .inr (.inr (.inr ⟨arena, harena, fact, hmem, happlies, x, y, hpredicate, p, q, root,
    root', hxp, hyq, hp, hq, ?_⟩))
  rcases hroots with ⟨rfl, rfl⟩ | ⟨rfl, rfl⟩
  · exact .inl ⟨hlroot, hrroot⟩
  · exact .inr ⟨hlroot, hrroot⟩

/-- A grounded `NoAlias` answer keeps apart all bytes that the two regions of a built function have
given access to. -/
theorem queryAlias_sound {mir : MirFunction} {config : KirBuildConfig} {ids ids' : KirIds}
    (hb : buildFunction mir config ids = .ok (f, ids'))
    (h : analyzeRegions rounds f facts = some (.ok analysis))
    {left right : MemoryRegionId} (hquery : (queryAlias analysis left right).kind = .noAlias)
    {t : TargetModel} {past : List Moment} {frame : Frame} {memory : Memory}
    (hact : Activation t f past frame memory) (hfacts : NoAliasFactsHold t f facts past)
    (hgrounded : AnswerGrounded t f facts past left right) :
    Disjoint (addressed t f past left) (addressed t f past right) := by
  have hssa := buildFunction_ssa hb
  have hempty : f.ProvenEmpty left ∨ f.ProvenEmpty right →
      Disjoint (addressed t f past left) (addressed t f past right) := by
    rintro (hempty | hempty)
    · rw [hssa.addressed_empty hact hempty]
      exact Set.empty_disjoint _
    · rw [hssa.addressed_empty hact hempty]
      exact Set.disjoint_empty _
  rcases hgrounded with hl | hr | ⟨happart, hbase⟩ | ⟨happart, hparams, hleft, hright⟩
  · exact hempty (.inl hl)
  · exact hempty (.inr hr)
  · exact hssa.disjoint_of_bounds hact happart hbase
  · rcases queryAlias_noAlias h hquery with hl | hr | hbounds |
      ⟨arena, harena, fact, hmem, happlies, x, y, hpredicate, hspeaks⟩
    · exact hempty (.inl hl)
    · exact hempty (.inr hr)
    · exact absurd hbounds happart
    · exact hssa.disjoint_of_contract hact hfacts hparams hleft hright harena hmem happlies
        hpredicate hspeaks

end Answers

/-! ## Two cuts of one slice -/

/-- `fn cut(s: slice<i32>) -> i32 { let a = s[1..3]; let b = s[0..1]; return b[0]; }`, or with
`a[0..1]` for `b`. -/
def cutMir (nested : Bool) : MirFunction where
  name := "cut"
  exported := false
  params := [⟨"s", .slice .i32⟩]
  returnType := .i32
  locals := [⟨"a", .slice .i32⟩, ⟨"b", .slice .i32⟩]
  blocks :=
    [⟨"bb0",
      [.constInt (.temp "0" .u32) "1", .constInt (.temp "1" .u32) "3",
        .subslice (.temp "2" (.slice .i32)) (.param "s" (.slice .i32)) (.temp "0" .u32)
          (.temp "1" .u32),
        .move (.local "a" (.slice .i32)) (.temp "2" (.slice .i32)),
        .constInt (.temp "3" .u32) "0", .constInt (.temp "4" .u32) "1",
        .subslice (.temp "5" (.slice .i32))
          (if nested then .local "a" (.slice .i32) else .param "s" (.slice .i32))
          (.temp "3" .u32) (.temp "4" .u32),
        .move (.local "b" (.slice .i32)) (.temp "5" (.slice .i32)),
        .constInt (.temp "6" .u32) "0",
        .load (.temp "7" .i32) (.sliceIndex (.local "b" (.slice .i32)) (.temp "6" .u32) .i32)],
      .return (some (.temp "7" .i32))⟩]

def cutKir (nested : Bool) : KirFunction :=
  match buildFunction (cutMir nested) uncheckedConfig {} with
  | .ok (g, _) => g
  | .error _ => ⟨0, "", false, [], .void, [], [], [], []⟩

theorem cutKir_built (nested : Bool) :
    ∃ ids, buildFunction (cutMir nested) uncheckedConfig {} = .ok (cutKir nested, ids) := by
  cases nested <;> exact ⟨_, rfl⟩

/-- A call of `cut` up to the load. -/
def cutRun (nested : Bool) : Option ActivationState :=
  (ActivationState.start (cutKir nested) [.slice 100 3] (fun _ ↦ none)).bind
    (·.runFor (lp64 zeroFloats) 9)

def cutState (nested : Bool) : ActivationState :=
  (cutRun nested).get (by cases nested <;> decide +kernel)

theorem cutState_activation (nested : Bool) : Activation (lp64 zeroFloats) (cutKir nested)
    (cutState nested).past (cutState nested).frame (cutState nested).memory := by
  have hrun : cutRun nested = some (cutState nested) := by simp [cutState]
  obtain ⟨a, ha, hrun⟩ := Option.bind_eq_some_iff.mp hrun
  exact ActivationState.runFor_activation (ActivationState.start_activation ha) hrun

theorem cut_noAlias (nested : Bool) : ∃ analysis,
    analyzeRegions 2 (cutKir nested) none = some (.ok analysis) ∧
      (queryAlias analysis 2 3).kind = .noAlias := by
  cases nested <;> exact ⟨_, rfl, by decide +kernel⟩

/-- The two cuts of the slice itself stay apart. -/
theorem cut_siblings_apart :
    Disjoint (addressed (lp64 zeroFloats) (cutKir false) (cutState false).past 2)
      (addressed (lp64 zeroFloats) (cutKir false) (cutState false).past 3) := by
  obtain ⟨ids, hbuilt⟩ := cutKir_built false
  obtain ⟨analysis, hanalysis, hquery⟩ := cut_noAlias false
  have hfacts := noAliasFactsHold_none (lp64 zeroFloats) (cutKir false) (cutState false).past
  have hparam : (0 : ValueId) ∈ (cutKir false).params.map (·.value) := by decide +kernel
  have hleft : (cutKir false).CutOf 0 2 := by unfold KirFunction.CutOf; decide +kernel
  have hright : (cutKir false).CutOf 0 3 := by unfold KirFunction.CutOf; decide +kernel
  have hbase := (buildFunction_ssa hbuilt).sharedBase_of_param (cutState_activation false) hparam
    hleft hright
  have hgrounded : AnswerGrounded (lp64 zeroFloats) (cutKir false) none (cutState false).past
      2 3 := by
    rcases queryAlias_noAlias hanalysis hquery with h | h | h | ⟨_, harena, _⟩
    · exact .inl h
    · exact .inr (.inl h)
    · exact .inr (.inr (.inl ⟨h, hbase⟩))
    · cases harena
  exact queryAlias_sound hbuilt hanalysis hquery (cutState_activation false) hfacts hgrounded

/-- A cut of the first cut is reported apart from it, and lies inside it. -/
theorem cut_nested_not_apart :
    (∃ ids, buildFunction (cutMir true) uncheckedConfig {} = .ok (cutKir true, ids)) ∧
      (∃ analysis, analyzeRegions 2 (cutKir true) none = some (.ok analysis) ∧
        (queryAlias analysis 2 3).kind = .noAlias) ∧
      Activation (lp64 zeroFloats) (cutKir true) (cutState true).past (cutState true).frame
        (cutState true).memory ∧
      NoAliasFactsHold (lp64 zeroFloats) (cutKir true) none (cutState true).past ∧
      ¬ Disjoint (addressed (lp64 zeroFloats) (cutKir true) (cutState true).past 2)
        (addressed (lp64 zeroFloats) (cutKir true) (cutState true).past 3) := by
  refine ⟨cutKir_built true, cut_noAlias true, cutState_activation true,
    noAliasFactsHold_none _ _ _, Set.not_disjoint_iff.mpr ⟨104, ?_, ?_⟩⟩
  · have hv : (cutState true).frame.env 5 = some (.slice 104 2) := rfl
    have htype : (cutKir true).valueType? 5 = some (.scalar (.slice .i32)) := by decide +kernel
    exact mem_addressed_of_slice (cutState_activation true) (by decide +kernel) hv htype
      (by decide) (by decide)
  · have hv : (cutState true).frame.env 8 = some (.slice 104 1) := rfl
    have htype : (cutKir true).valueType? 8 = some (.scalar (.slice .i32)) := by decide +kernel
    exact mem_addressed_of_slice (cutState_activation true) (by decide +kernel) hv htype
      (by decide) (by decide)

end CalcKernel
