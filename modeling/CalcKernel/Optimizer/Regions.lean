import CalcKernel.Kir.Model
import CalcKernel.Lib.Assoc
import CalcKernel.Optimizer.Facts

/-!
# Region analysis

The root of every region, its symbolic byte interval with the bounds that are
constants, and the pairs of roots that a contract keeps apart.
-/

namespace CalcKernel

/-- `[start * sizeof(T), stop * sizeof(T))`, relative to the slice the region was cut from. -/
structure SymbolicByteInterval where
  start : ValueId
  stop : ValueId
  elementType : MirType
  exactStart : Option Int
  exactStop : Option Int
deriving DecidableEq, Repr

namespace SymbolicByteInterval

def isProvenEmpty (i : SymbolicByteInterval) : Bool :=
  i.exactStart.isSome && i.exactStart == i.exactStop

def isProvenWellFormed (i : SymbolicByteInterval) : Bool :=
  match i.exactStart, i.exactStop with
  | some start, some stop => start ≤ stop
  | _, _ => false

end SymbolicByteInterval

structure RegionDescriptor where
  id : MemoryRegionId
  root : MemoryRegionId
  parent : Option MemoryRegionId
  partition : MemoryRegionId
  origin : KirMemoryRegionOrigin
  byteInterval : Option SymbolicByteInterval
deriving DecidableEq, Repr

structure RegionAnalysis where
  function : FunctionId
  descriptor : MemoryRegionId → Option RegionDescriptor
  valueRegions : ValueId → Option MemoryRegionId
  noalias : MemoryRegionId × MemoryRegionId → Option FactId

def orderedPair (left right : MemoryRegionId) : MemoryRegionId × MemoryRegionId :=
  if left ≤ right then (left, right) else (right, left)

def RegionAnalysis.noaliasFact (analysis : RegionAnalysis) (left right : MemoryRegionId) :
    Option FactId := analysis.noalias (orderedPair left right)

/-- The constant an instruction defines as its first result. -/
def KirInstruction.integerConstant (i : KirInstruction) : Option (ValueId × Int) :=
  match i.kind, i.defs with
  | .constInt text, v :: _ => (parseInteger text).map fun x ↦ (v, x)
  | _, _ => none

/-- `integer_constants`; of two constants for one value the later wins. -/
def integerConstants (f : KirFunction) (v : ValueId) : Option Int :=
  (f.instructions.filterMap (·.integerConstant)).reverse.lookup v

def KirFunction.lastRegion? (f : KirFunction) (id : MemoryRegionId) : Option KirMemoryRegion :=
  f.regions.reverse.find? (·.id = id)

/-- `find_root`.  A walk that visits more regions than there are has visited one twice. -/
def findRoot (f : KirFunction) (region : MemoryRegionId) :
    Nat → List MemoryRegionId → MemoryRegionId → Except String MemoryRegionId
  | 0, _, _ => .error ("memory region r" ++ toString region ++ " has a parent cycle")
  | n + 1, seen, current =>
      if current ∈ seen then
        .error ("memory region r" ++ toString region ++ " has a parent cycle")
      else
        match f.lastRegion? current with
        | some ⟨_, _, some parent, _, _⟩ => findRoot f region n (current :: seen) parent
        | some ⟨_, _, none, _, _⟩ => .ok current
        | none =>
            .error ("memory region r" ++ toString region ++ " names missing parent r" ++
              toString current)

def describeRegion (f : KirFunction) (region : KirMemoryRegion) :
    Except String RegionDescriptor := do
  let root ← findRoot f region.id (f.regions.length + 1) [] region.id
  return { id := region.id
           root := root
           parent := region.parent
           partition := region.partition
           origin := region.origin
           byteInterval := region.byteInterval.map fun interval ↦
             ⟨interval.start, interval.stop, interval.elementType,
               integerConstants f interval.start, integerConstants f interval.stop⟩ }

/-- The region of the value each region originates from. -/
def originRegions (f : KirFunction) (v : ValueId) : Option MemoryRegionId :=
  (f.regions.reverse.find? fun r ↦ r.origin.value? = some v).map (·.id)

/-- The value whose region a copy or a data pointer takes over. -/
def KirInstructionKind.regionSource : KirInstructionKind → Option ValueId
  | .copy v | .sliceData v => some v
  | _ => none

abbrev ValueRegions := ValueId → Option MemoryRegionId

/-- One instruction of a propagation round, with the `changed` flag. -/
def propagateInstruction (state : ValueRegions × Bool) (i : KirInstruction) :
    ValueRegions × Bool :=
  match i.defs.head?, i.kind.regionSource.bind state.1 with
  | some result, some region =>
      (Function.update state.1 result (some region),
        state.2 || state.1 result != some region)
  | _, _ => state

/-- `propagate_value_regions`: rounds over all instructions until one changes nothing; `none` when
that takes more than the given number of rounds. -/
def propagateValueRegions (f : KirFunction) : Nat → ValueRegions → Option ValueRegions
  | 0, _ => none
  | n + 1, regions =>
      let (next, changed) := f.instructions.foldl propagateInstruction (regions, false)
      if changed then propagateValueRegions f n next else some next

def FactScope.appliesTo (scope : FactScope) (function : FunctionId) : Bool :=
  match scope with
  | .functionEntry owner | .block owner _ | .calleeInstance _ owner | .inlineClone owner _ _ =>
      owner = function

/-- The pair of roots a fact keeps apart. -/
def noaliasRoots (function : FunctionId) (descriptor : MemoryRegionId → Option RegionDescriptor)
    (regions : ValueRegions) (fact : Fact) : Option (MemoryRegionId × MemoryRegionId) :=
  match fact.predicate with
  | .contract (.noAlias left right) =>
      if fact.scope.appliesTo function then
        match (regions left).bind descriptor, (regions right).bind descriptor with
        | some l, some r => some (orderedPair l.root r.root)
        | _, _ => none
      else none
  | _ => none

/-- `analyze_regions`; `none` when the propagation is not done within the rounds. -/
def analyzeRegions (rounds : Nat) (f : KirFunction) (facts : Option FactArena) :
    Option (Except String RegionAnalysis) :=
  match f.regions.mapM (describeRegion f) with
  | .error message => some (.error message)
  | .ok descriptors =>
      (propagateValueRegions f rounds (originRegions f)).map fun regions ↦
        let descriptor := fun id ↦ descriptors.reverse.find? (·.id = id)
        let arena := (facts.map (·.facts)).getD []
        .ok
          { function := f.id
            descriptor := descriptor
            valueRegions := regions
            noalias := fun pair ↦
              (arena.reverse.find? fun fact ↦
                noaliasRoots f.id descriptor regions fact = some pair).map (·.id) }

/-- `intervals_are_disjoint`. -/
def intervalsAreDisjoint (left right : SymbolicByteInterval) : Bool :=
  left.elementType = right.elementType && left.isProvenWellFormed && right.isProvenWellFormed &&
    match left.exactStart, left.exactStop, right.exactStart, right.exactStop with
    | some leftStart, some leftStop, some rightStart, some rightStop =>
        leftStop ≤ rightStart || rightStop ≤ leftStart
    | _, _, _, _ => false

theorem intervalsAreDisjoint_spec {l r : SymbolicByteInterval} (h : intervalsAreDisjoint l r) :
    l.elementType = r.elementType ∧
      ∃ a b c d, l.exactStart = some a ∧ l.exactStop = some b ∧ r.exactStart = some c ∧
        r.exactStop = some d ∧ a ≤ b ∧ c ≤ d ∧ (b ≤ c ∨ d ≤ a) := by
  obtain ⟨ls, le, le', la, lb⟩ := l
  obtain ⟨rs, re, re', ra, rb⟩ := r
  cases la <;> cases lb <;> cases ra <;> cases rb <;>
    simp_all [intervalsAreDisjoint, SymbolicByteInterval.isProvenWellFormed]

/-! ## What the analysis reports -/

/-- A region that a value stands for: one that originates from it, or one of the value it copies or
takes the data pointer of. -/
inductive KirFunction.StandsFor (f : KirFunction) : ValueId → MemoryRegionId → Prop
  | origin {v : ValueId} {region : KirMemoryRegion} (h : region ∈ f.regions)
      (hv : region.origin.value? = some v) : f.StandsFor v region.id
  | source {u v : ValueId} {r : MemoryRegionId} {i : KirInstruction} (hi : i ∈ f.instructions)
      (hv : v ∈ i.defs) (hsource : i.kind.regionSource = some u) (hu : f.StandsFor u r) :
      f.StandsFor v r

section Reported

variable {f : KirFunction}

/-- A constant is what its defining instruction spells out. -/
theorem integerConstants_spec {v : ValueId} {n : Int} (h : integerConstants f v = some n) :
    ∃ i ∈ f.instructions, ∃ text rest, i.kind = .constInt text ∧ i.defs = v :: rest ∧
      parseInteger text = some n := by
  have hmem := Lib.mem_of_lookup h
  rw [List.mem_reverse, List.mem_filterMap] at hmem
  obtain ⟨i, hi, hconst⟩ := hmem
  unfold KirInstruction.integerConstant at hconst
  split at hconst
  · rename_i text w rest hkind hdefs
    obtain ⟨x, hx, hpair⟩ := Option.map_eq_some_iff.mp hconst
    cases hpair
    exact ⟨i, hi, text, rest, hkind, hdefs, hx⟩
  · cases hconst

theorem lastRegion?_mem {id : MemoryRegionId} {r : KirMemoryRegion}
    (h : f.lastRegion? id = some r) : r ∈ f.regions ∧ r.id = id :=
  ⟨List.mem_reverse.mp (List.mem_of_find?_eq_some h), by simpa using List.find?_some h⟩

theorem findRoot_within {region current root : MemoryRegionId} {n : Nat}
    {seen : List MemoryRegionId} (h : findRoot f region n seen current = .ok root) :
    f.Within current root := by
  induction n generalizing seen current with
  | zero => cases h
  | succ n ih =>
      unfold findRoot at h
      split at h
      · cases h
      · split at h
        · rename_i hfind
          obtain ⟨hmem, hid⟩ := lastRegion?_mem hfind
          exact .parent hmem hid rfl (ih h)
        · cases h
          exact .self _
        · cases h

/-- A descriptor belongs to a region of the function and reports its root and interval. -/
theorem analyzeRegions_descriptor {rounds : Nat} {facts : Option FactArena}
    {analysis : RegionAnalysis} (h : analyzeRegions rounds f facts = some (.ok analysis))
    {id : MemoryRegionId} {d : RegionDescriptor} (hd : analysis.descriptor id = some d) :
    ∃ region ∈ f.regions, region.id = id ∧ f.Within id d.root ∧
      d.byteInterval = region.byteInterval.map fun interval ↦
        ⟨interval.start, interval.stop, interval.elementType,
          integerConstants f interval.start, integerConstants f interval.stop⟩ := by
  unfold analyzeRegions at h
  split at h
  · cases h
  · rename_i descriptors hdescriptors
    obtain ⟨regions, _, h⟩ := Option.map_eq_some_iff.mp h
    cases h
    have hid : d.id = id := by simpa using List.find?_some hd
    have hmem := List.mem_reverse.mp (List.mem_of_find?_eq_some hd)
    obtain ⟨region, hregion, hdescribe⟩ := Lib.mapM_except_mem hdescriptors hmem
    unfold describeRegion at hdescribe
    cases hroot : findRoot f region.id (f.regions.length + 1) [] region.id with
    | error e => simp [hroot, bind, Except.bind] at hdescribe
    | ok root =>
        simp only [hroot, bind, Except.bind, pure, Except.pure, Except.ok.injEq] at hdescribe
        subst hdescribe
        exact ⟨region, hregion, hid, hid ▸ findRoot_within hroot, rfl⟩

theorem orderedPair_eq {a b c d : MemoryRegionId} (h : orderedPair a b = orderedPair c d) :
    a = c ∧ b = d ∨ a = d ∧ b = c := by
  unfold orderedPair at h
  split at h <;> split at h <;> simp only [Prod.mk.injEq] at h
  · exact .inl h
  · exact .inr h
  · exact .inr ⟨h.2, h.1⟩
  · exact .inl ⟨h.2, h.1⟩

theorem originRegions_standsFor {v : ValueId} {r : MemoryRegionId}
    (h : originRegions f v = some r) : f.StandsFor v r := by
  obtain ⟨region, hfind, rfl⟩ := Option.map_eq_some_iff.mp h
  exact .origin (List.mem_reverse.mp (List.mem_of_find?_eq_some hfind))
    (by simpa using List.find?_some hfind)

theorem propagateInstruction_standsFor {state : ValueRegions × Bool} {i : KirInstruction}
    (hi : i ∈ f.instructions) (hstate : ∀ v r, state.1 v = some r → f.StandsFor v r) :
    ∀ v r, (propagateInstruction state i).1 v = some r → f.StandsFor v r := by
  intro v r h
  unfold propagateInstruction at h
  split at h
  · rename_i result region hresult hregion
    obtain ⟨u, hu, hregion⟩ := Option.bind_eq_some_iff.mp hregion
    simp only [Function.update_apply] at h
    split at h
    · rename_i hv
      cases h
      subst hv
      exact .source hi (List.mem_of_head? hresult) hu (hstate u _ hregion)
    · exact hstate v r h
  · exact hstate v r h

/-- Propagation only gives values regions they stand for. -/
theorem propagateValueRegions_standsFor {n : Nat} {regions result : ValueRegions}
    (hregions : ∀ v r, regions v = some r → f.StandsFor v r)
    (h : propagateValueRegions f n regions = some result) :
    ∀ v r, result v = some r → f.StandsFor v r := by
  induction n generalizing regions with
  | zero => cases h
  | succ n ih =>
      have hround : ∀ v r,
          (f.instructions.foldl propagateInstruction (regions, false)).1 v = some r →
            f.StandsFor v r := by
        refine List.foldlRecOn f.instructions propagateInstruction
          (motive := fun state ↦ ∀ v r, state.1 v = some r → f.StandsFor v r)
          (b := (regions, false)) hregions ?_
        intro state hstate i hi
        exact propagateInstruction_standsFor hi hstate
      unfold propagateValueRegions at h
      simp only at h
      split at h
      · exact ih hround h
      · cases h
        exact hround

/-- A reported contract was recorded for values that stand for regions under the two roots. -/
theorem analyzeRegions_noaliasFact {rounds : Nat} {facts : Option FactArena}
    {analysis : RegionAnalysis} (h : analyzeRegions rounds f facts = some (.ok analysis))
    {left right : MemoryRegionId} {id : FactId}
    (hfact : analysis.noaliasFact left right = some id) :
    ∃ arena, facts = some arena ∧ ∃ fact ∈ arena.facts, fact.scope.appliesTo f.id ∧
      ∃ x y, fact.predicate = .contract (.noAlias x y) ∧
        ∃ p q root root', f.StandsFor x p ∧ f.StandsFor y q ∧ f.Within p root ∧
          f.Within q root' ∧ (root = left ∧ root' = right ∨ root = right ∧ root' = left) := by
  have hdescriptor := @analyzeRegions_descriptor f rounds facts analysis h
  unfold analyzeRegions at h
  split at h
  · cases h
  · rename_i descriptors _
    obtain ⟨regions, hregions, h⟩ := Option.map_eq_some_iff.mp h
    have hstands := propagateValueRegions_standsFor
      (fun v r ↦ originRegions_standsFor) hregions
    cases h
    obtain ⟨fact, hfind, _⟩ := Option.map_eq_some_iff.mp hfact
    have hmem := List.mem_reverse.mp (List.mem_of_find?_eq_some hfind)
    have hroots := List.find?_some hfind
    simp only [decide_eq_true_eq] at hroots
    cases facts with
    | none => cases hmem
    | some arena =>
        refine ⟨arena, rfl, fact, hmem, ?_⟩
        unfold noaliasRoots at hroots
        split at hroots
        case h_2 => cases hroots
        case h_1 x y hpredicate =>
        split at hroots
        case isFalse => cases hroots
        case isTrue happlies =>
        split at hroots
        case h_2 => cases hroots
        case h_1 l r hl hr =>
        obtain ⟨p, hp, hl⟩ := Option.bind_eq_some_iff.mp hl
        obtain ⟨q, hq, hr⟩ := Option.bind_eq_some_iff.mp hr
        obtain ⟨_, _, _, hpl, _⟩ := hdescriptor hl
        obtain ⟨_, _, _, hqr, _⟩ := hdescriptor hr
        exact ⟨happlies, x, y, hpredicate, p, q, l.root, r.root, hstands x p hp, hstands y q hq,
          hpl, hqr, orderedPair_eq (Option.some.inj hroots)⟩

end Reported

end CalcKernel
