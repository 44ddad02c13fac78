import CalcKernel.Lib.Assoc
import CalcKernel.Lib.Corners
import CalcKernel.Profile.Identity

/-!
# The profitability checker

A guarded decision is proposed with its net benefit.  The checker bounds the benefit of
every class of observations from below at the ends of its interval, adds the bounds up and
takes off the guards; all sums are checked.
-/

namespace CalcKernel

open Lib

abbrev U128 := BitVec 128

namespace U128

def ofU64 (value : UInt64) : U128 := BitVec.ofNat 128 value.toNat

def ofU32 (value : UInt32) : U128 := BitVec.ofNat 128 value.toNat

def checkedAdd (left right : U128) : Option U128 :=
  if left.toNat + right.toNat < 2 ^ 128 then some (left + right) else none

def checkedMul (left right : U128) : Option U128 :=
  if left.toNat * right.toNat < 2 ^ 128 then some (left * right) else none

@[simp] theorem toNat_ofU64 (value : UInt64) : (ofU64 value).toNat = value.toNat := by
  rw [ofU64, BitVec.toNat_ofNat, Nat.mod_eq_of_lt]
  exact value.toNat_lt.trans (by decide)

@[simp] theorem toNat_ofU32 (value : UInt32) : (ofU32 value).toNat = value.toNat := by
  rw [ofU32, BitVec.toNat_ofNat, Nat.mod_eq_of_lt]
  exact value.toNat_lt.trans (by decide)

theorem toNat_of_checkedAdd {left right sum : U128} (h : checkedAdd left right = some sum) :
    sum.toNat = left.toNat + right.toNat := by
  unfold checkedAdd at h
  split at h
  · rename_i hlt
    cases h
    rw [BitVec.toNat_add, Nat.mod_eq_of_lt hlt]
  · cases h

theorem toNat_of_checkedMul {left right product : U128}
    (h : checkedMul left right = some product) : product.toNat = left.toNat * right.toNat := by
  unfold checkedMul at h
  split at h
  · rename_i hlt
    cases h
    rw [BitVec.toNat_mul, Nat.mod_eq_of_lt hlt]
  · cases h

end U128

/-- `ok_or`. -/
def okOr {α : Type} (value : Option α) (error : CkProfileError) : Except CkProfileError α :=
  match value with
  | some a => .ok a
  | none => .error error

theorem okOr_eq_ok {α : Type} {value : Option α} {error : CkProfileError} {a : α} :
    okOr value error = .ok a ↔ value = some a := by
  cases value <;> simp [okOr]

structure CkSignedMagnitude where
  negative : Bool
  magnitude : U128
deriving DecidableEq, Repr

structure CkAffineCostFormula where
  fixed : UInt64
  perUnit : UInt64
deriving DecidableEq, Repr

inductive CkProfileCostDomain where
  | exact (value : UInt32)
  | histogramBucket (bucket : UInt8)
deriving DecidableEq, Repr

structure CkProfileCostClass where
  count : UInt64
  domain : CkProfileCostDomain
  baseline : CkAffineCostFormula
  selected : CkAffineCostFormula
deriving DecidableEq, Repr

structure CkProfileCostProposal where
  classes : List CkProfileCostClass
  guardCost : UInt64
  reportedNet : CkSignedMagnitude
deriving DecidableEq, Repr

inductive CkProfileCostDecision where
  | select (netBenefit : U128)
  | baseline
deriving DecidableEq, Repr

/-- The inclusive interval of a bucket. -/
def profileHistogramBucketRange (bucket : UInt8) : Option (UInt32 × UInt32) :=
  match bucket.toNat with
  | 0 => some (0, 0)
  | 1 => some (1, 1)
  | 2 => some (2, 2)
  | 3 => some (3, 4)
  | 4 => some (5, 8)
  | 5 => some (9, 16)
  | 6 => some (17, 32)
  | 7 => some (33, 64)
  | 8 => some (65, 128)
  | 9 => some (129, 256)
  | 10 => some (257, 512)
  | 11 => some (513, 1024)
  | 12 => some (1025, 2048)
  | 13 => some (2049, 4096)
  | 14 => some (4097, 65536)
  | 15 => some (65537, 4294967295)
  | _ => none

def evaluate (formula : CkAffineCostFormula) (value : UInt32) : Except CkProfileError U128 :=
  okOr ((U128.checkedMul (.ofU64 formula.perUnit) (.ofU32 value)).bind
    (U128.checkedAdd · (.ofU64 formula.fixed))) (.arithmeticOverflow "affine target cost")

/-- The difference of two unsigned numbers, smaller from larger. -/
def signedDifference (left right : U128) : CkSignedMagnitude :=
  if right ≤ left then ⟨false, left - right⟩ else ⟨true, right - left⟩

def difference (baseline selected : CkAffineCostFormula) (value : UInt32) :
    Except CkProfileError CkSignedMagnitude := do
  let baseline ← evaluate baseline value
  let selected ← evaluate selected value
  return signedDifference baseline selected

def minimumSigned (left right : CkSignedMagnitude) : CkSignedMagnitude :=
  match left.negative, right.negative with
  | true, true => if right.magnitude ≤ left.magnitude then left else right
  | true, false => left
  | false, true => right
  | false, false => if left.magnitude ≤ right.magnitude then left else right

def CkProfileCostDomain.range : CkProfileCostDomain → Except CkProfileError (UInt32 × UInt32)
  | .exact value => .ok (value, value)
  | .histogramBucket bucket =>
      okOr (profileHistogramBucketRange bucket) (.invalidValue "profile.cost.bucket")

def classLowerBound (costClass : CkProfileCostClass) : Except CkProfileError CkSignedMagnitude := do
  let (lower, upper) ← costClass.domain.range
  let first ← difference costClass.baseline costClass.selected lower
  let last ← difference costClass.baseline costClass.selected upper
  return minimumSigned first last

/-- What the loop over the classes adds up. -/
structure CostSums where
  positive : U128
  negative : U128
  observations : U128
deriving DecidableEq, Repr

def CostSums.addClass (sums : CostSums) (costClass : CkProfileCostClass) :
    Except CkProfileError CostSums := do
  let observations ← okOr (U128.checkedAdd sums.observations (.ofU64 costClass.count))
    (.arithmeticOverflow "profile class observations")
  let lower ← classLowerBound costClass
  let weighted ← okOr (U128.checkedMul lower.magnitude (.ofU64 costClass.count))
    (.arithmeticOverflow "weighted profile class")
  if lower.negative then
    let negative ← okOr (U128.checkedAdd sums.negative weighted)
      (.arithmeticOverflow "profile class sum")
    return { sums with negative, observations }
  else
    let positive ← okOr (U128.checkedAdd sums.positive weighted)
      (.arithmeticOverflow "profile class sum")
    return { sums with positive, observations }

def verifyProfileCostProposal (proposal : CkProfileCostProposal) :
    Except CkProfileError CkProfileCostDecision :=
  if proposal.classes = [] then .error (.application "profile cost classes are empty")
  else do
    let sums ← proposal.classes.foldlM CostSums.addClass ⟨0, 0, 0⟩
    let guards ← okOr (U128.checkedMul sums.observations (.ofU64 proposal.guardCost))
      (.arithmeticOverflow "profile guard cost")
    let negative ← okOr (U128.checkedAdd sums.negative guards)
      (.arithmeticOverflow "profile negative cost")
    let recomputed := signedDifference sums.positive negative
    if proposal.reportedNet ≠ recomputed then .error (.application "profile cost total mismatch")
    else if !recomputed.negative && recomputed.magnitude != 0 then
      return .select recomputed.magnitude
    else return .baseline

/-! ## Costs of observations -/

namespace CkSignedMagnitude

def value (m : CkSignedMagnitude) : Int :=
  if m.negative then -m.magnitude.toNat else m.magnitude.toNat

end CkSignedMagnitude

def CkAffineCostFormula.cost (formula : CkAffineCostFormula) (value : UInt32) : Int :=
  formula.fixed.toNat + formula.perUnit.toNat * value.toNat

/-- The values that an observation of the class may have. -/
def CkProfileCostDomain.Contains (domain : CkProfileCostDomain) (value : UInt32) : Prop :=
  match domain with
  | .exact v => value = v
  | .histogramBucket bucket => ∃ range, profileHistogramBucketRange bucket = some range ∧
      range.1 ≤ value ∧ value ≤ range.2

/-- One concrete value for each observation of each class. -/
def Observes (classes : List CkProfileCostClass) (observations : List (List UInt32)) : Prop :=
  List.Forall₂ (fun costClass values ↦ values.length = costClass.count.toNat ∧
    ∀ value ∈ values, costClass.domain.Contains value) classes observations

/-- The cost of all observations, by the formula of their classes. -/
def totalCost (formula : CkProfileCostClass → CkAffineCostFormula)
    (classes : List CkProfileCostClass) (observations : List (List UInt32)) : Int :=
  (List.zipWith (fun costClass values ↦ (values.map (formula costClass).cost).sum) classes
    observations).sum

/-- The cost of the guard of all observations. -/
def totalGuard (guardCost : UInt64) (observations : List (List UInt32)) : Int :=
  guardCost.toNat * (observations.map fun values ↦ (values.length : Int)).sum

/-! ## Exactness -/

theorem signedDifference_value (left right : U128) :
    (signedDifference left right).value = left.toNat - right.toNat := by
  unfold signedDifference
  split
  · rename_i hle
    rw [BitVec.le_def] at hle
    simp only [CkSignedMagnitude.value, Bool.false_eq_true, if_false]
    rw [BitVec.toNat_sub_of_le (BitVec.le_def.mpr hle)]
    omega
  · rename_i hnot
    rw [BitVec.le_def, not_le] at hnot
    simp only [CkSignedMagnitude.value, if_true]
    rw [BitVec.toNat_sub_of_le (BitVec.le_def.mpr hnot.le)]
    omega

theorem evaluate_cost {formula : CkAffineCostFormula} {value : UInt32} {cost : U128}
    (h : evaluate formula value = .ok cost) : (cost.toNat : Int) = formula.cost value := by
  obtain ⟨variablePart, hmul, hadd⟩ := Option.bind_eq_some_iff.mp (okOr_eq_ok.mp h)
  rw [U128.toNat_of_checkedAdd hadd, U128.toNat_of_checkedMul hmul]
  simp [CkAffineCostFormula.cost]
  ring

theorem difference_value {baseline selected : CkAffineCostFormula} {value : UInt32}
    {d : CkSignedMagnitude} (h : difference baseline selected value = .ok d) :
    d.value = baseline.cost value - selected.cost value := by
  obtain ⟨b, hb, h⟩ := bind_eq_ok.mp h
  obtain ⟨s, hs, h⟩ := bind_eq_ok.mp h
  cases h
  rw [signedDifference_value, evaluate_cost hb, evaluate_cost hs]

theorem minimumSigned_value (left right : CkSignedMagnitude) :
    (minimumSigned left right).value = min left.value right.value := by
  obtain ⟨negative, m⟩ := left
  obtain ⟨negative', m'⟩ := right
  cases negative <;> cases negative' <;> simp only [minimumSigned]
  · split
    · rename_i hle
      rw [BitVec.le_def] at hle
      simp only [CkSignedMagnitude.value, Bool.false_eq_true, if_false]
      omega
    · rename_i hnot
      rw [BitVec.le_def] at hnot
      simp only [CkSignedMagnitude.value, Bool.false_eq_true, if_false]
      omega
  · simp only [CkSignedMagnitude.value, Bool.false_eq_true, if_false, if_true]
    omega
  · simp only [CkSignedMagnitude.value, Bool.false_eq_true, if_false, if_true]
    omega
  · split
    · rename_i hle
      rw [BitVec.le_def] at hle
      simp only [CkSignedMagnitude.value, if_true]
      omega
    · rename_i hnot
      rw [BitVec.le_def] at hnot
      simp only [CkSignedMagnitude.value, if_true]
      omega

namespace CkProfileCostClass

variable (costClass : CkProfileCostClass)

/-- The benefit of one observation, without the guard. -/
def benefit (value : UInt32) : Int := costClass.baseline.cost value - costClass.selected.cost value

/-- The smaller of the benefits at the ends of the interval. -/
def exactLowerBound : Int :=
  match costClass.domain.range with
  | .ok (lower, upper) => min (costClass.benefit lower) (costClass.benefit upper)
  | .error _ => 0

/-- The benefit is affine, so on an interval it is least at an end. -/
theorem min_le_benefit {lower upper value : UInt32} (hlower : lower ≤ value)
    (hupper : value ≤ upper) :
    min (costClass.benefit lower) (costClass.benefit upper) ≤ costClass.benefit value := by
  let slope : Int := costClass.baseline.perUnit.toNat - costClass.selected.perUnit.toNat
  let affine : Int → Int :=
    fun v ↦ costClass.baseline.fixed.toNat - costClass.selected.fixed.toNat + slope * v
  have haffine : ∀ v : UInt32, costClass.benefit v = affine v.toNat := by
    intro v
    simp only [benefit, CkAffineCostFormula.cost, affine, slope]
    ring
  have hone : OneWayOn affine (Set.Icc (lower.toNat : Int) upper.toNat) := by
    rcases Int.le_total 0 slope with hslope | hslope
    · refine .inl fun a _ b _ hab ↦ ?_
      exact Int.add_le_add_left (Int.mul_le_mul_of_nonneg_left hab hslope) _
    · refine .inr fun a _ b _ hab ↦ ?_
      exact Int.add_le_add_left (Int.mul_le_mul_of_nonpos_left hslope hab) _
  have hmem : (value.toNat : Int) ∈ Set.Icc (lower.toNat : Int) upper.toNat := by
    rw [UInt32.le_iff_toNat_le] at hlower hupper
    exact ⟨Int.ofNat_le.mpr hlower, Int.ofNat_le.mpr hupper⟩
  rw [haffine, haffine, haffine]
  exact (hone.mem_uIcc hmem).1

theorem exactLowerBound_le {range : UInt32 × UInt32} (hrange : costClass.domain.range = .ok range)
    {value : UInt32} (hvalue : costClass.domain.Contains value) :
    costClass.exactLowerBound ≤ costClass.benefit value := by
  rw [exactLowerBound, hrange]
  cases hdomain : costClass.domain with
  | exact v =>
      rw [hdomain] at hrange hvalue
      cases hrange
      obtain rfl : value = v := hvalue
      exact min_le_left _ _
  | histogramBucket bucket =>
      rw [hdomain] at hrange hvalue
      obtain ⟨r, hr, hlower, hupper⟩ := hvalue
      obtain rfl : r = range := by
        have hr' := okOr_eq_ok.mp hrange
        rw [hr] at hr'
        exact Option.some.inj hr'
      exact costClass.min_le_benefit hlower hupper

theorem classLowerBound_value {lower : CkSignedMagnitude}
    (h : classLowerBound costClass = .ok lower) :
    lower.value = costClass.exactLowerBound ∧ ∃ range, costClass.domain.range = .ok range := by
  obtain ⟨range, hrange, h⟩ := bind_eq_ok.mp h
  obtain ⟨first, hfirst, h⟩ := bind_eq_ok.mp h
  obtain ⟨last, hlast, h⟩ := bind_eq_ok.mp h
  cases h
  rw [minimumSigned_value, difference_value hfirst, difference_value hlast, exactLowerBound,
    hrange]
  exact ⟨rfl, range, rfl⟩

end CkProfileCostClass

/-- The net of the sums so far. -/
def CostSums.net (sums : CostSums) : Int := sums.positive.toNat - sums.negative.toNat

/-- One round of the loop. -/
theorem CostSums.addClass_spec {sums sums' : CostSums} {costClass : CkProfileCostClass}
    (h : sums.addClass costClass = .ok sums') :
    sums'.net = sums.net + costClass.count.toNat * costClass.exactLowerBound ∧
      sums'.observations.toNat = sums.observations.toNat + costClass.count.toNat ∧
      ∃ range, costClass.domain.range = .ok range := by
  obtain ⟨observations, hobservations, h⟩ := bind_eq_ok.mp h
  obtain ⟨lower, hlower, h⟩ := bind_eq_ok.mp h
  obtain ⟨weighted, hweighted, h⟩ := bind_eq_ok.mp h
  obtain ⟨hvalue, hrange⟩ := costClass.classLowerBound_value hlower
  have hcount := U128.toNat_of_checkedAdd (okOr_eq_ok.mp hobservations)
  have hweight := U128.toNat_of_checkedMul (okOr_eq_ok.mp hweighted)
  rw [U128.toNat_ofU64] at hcount hweight
  rw [← hvalue]
  split at h
  · rename_i hnegative
    obtain ⟨negative, hsum, h⟩ := bind_eq_ok.mp h
    cases h
    have hadd := U128.toNat_of_checkedAdd (okOr_eq_ok.mp hsum)
    refine ⟨?_, hcount, hrange⟩
    simp only [net, CkSignedMagnitude.value, hnegative, if_true, hadd, hweight]
    push_cast
    ring
  · rename_i hnegative
    obtain ⟨positive, hsum, h⟩ := bind_eq_ok.mp h
    cases h
    have hadd := U128.toNat_of_checkedAdd (okOr_eq_ok.mp hsum)
    refine ⟨?_, hcount, hrange⟩
    rw [Bool.not_eq_true] at hnegative
    simp only [net, CkSignedMagnitude.value, hnegative, Bool.false_eq_true, if_false, hadd,
      hweight]
    push_cast
    ring

theorem addClasses_spec {classes : List CkProfileCostClass} {sums sums' : CostSums}
    (h : classes.foldlM CostSums.addClass sums = .ok sums') :
    sums'.net = sums.net + (classes.map fun c ↦ (c.count.toNat : Int) * c.exactLowerBound).sum ∧
      (sums'.observations.toNat : Int) = sums.observations.toNat +
        (classes.map fun c ↦ (c.count.toNat : Int)).sum ∧
      ∀ c ∈ classes, ∃ range, c.domain.range = .ok range := by
  induction classes generalizing sums with
  | nil =>
      cases h
      simp
  | cons costClass classes ih =>
      rw [List.foldlM_cons] at h
      obtain ⟨next, hnext, h⟩ := bind_eq_ok.mp h
      obtain ⟨hnet, hobservations, hrange⟩ := CostSums.addClass_spec hnext
      obtain ⟨hnet', hobservations', hranges⟩ := ih h
      rw [List.map_cons, List.map_cons, List.sum_cons, List.sum_cons]
      refine ⟨by omega, by omega, ?_⟩
      intro c hc
      rcases List.mem_cons.mp hc with rfl | hc
      · exact hrange
      · exact hranges c hc

/-- The net benefit computed without any bound on the numbers. -/
def CkProfileCostProposal.exactNet (proposal : CkProfileCostProposal) : Int :=
  (proposal.classes.map fun c ↦ (c.count.toNat : Int) * c.exactLowerBound).sum -
    proposal.guardCost.toNat * (proposal.classes.map fun c ↦ (c.count.toNat : Int)).sum

theorem verify_select {proposal : CkProfileCostProposal} {netBenefit : U128}
    (h : verifyProfileCostProposal proposal = .ok (.select netBenefit)) :
    (netBenefit.toNat : Int) = proposal.exactNet ∧ 0 < netBenefit.toNat ∧
      ∀ c ∈ proposal.classes, ∃ range, c.domain.range = .ok range := by
  unfold verifyProfileCostProposal at h
  split at h
  · cases h
  obtain ⟨sums, hsums, h⟩ := bind_eq_ok.mp h
  obtain ⟨guards, hguards, h⟩ := bind_eq_ok.mp h
  obtain ⟨negative, hnegative, h⟩ := bind_eq_ok.mp h
  dsimp only at h
  split at h
  · cases h
  split at h
  · rename_i hpositive
    cases h
    obtain ⟨hnet, hobservations, hranges⟩ := addClasses_spec hsums
    have hvalue := signedDifference_value sums.positive negative
    rw [Bool.and_eq_true, Bool.not_eq_true', bne_iff_ne] at hpositive
    rw [CkSignedMagnitude.value, if_neg (by simp [hpositive.1]),
      U128.toNat_of_checkedAdd (okOr_eq_ok.mp hnegative),
      U128.toNat_of_checkedMul (okOr_eq_ok.mp hguards), U128.toNat_ofU64] at hvalue
    refine ⟨?_, ?_, hranges⟩
    · have hzero : CostSums.net ⟨0, 0, 0⟩ = 0 := rfl
      have hstart : (((⟨0, 0, 0⟩ : CostSums).observations.toNat : Nat) : Int) = 0 := rfl
      rw [hzero, zero_add] at hnet
      rw [hstart, zero_add] at hobservations
      rw [hvalue, CkProfileCostProposal.exactNet, ← hnet, ← hobservations, CostSums.net]
      push_cast
      ring
    · apply Nat.pos_of_ne_zero
      intro hzero
      exact hpositive.2 (BitVec.eq_of_toNat_eq hzero)
  · cases h

/-- The bounds of the classes, weighted, lie under what the observations really gain. -/
theorem exactNet_le {classes : List CkProfileCostClass} {observations : List (List UInt32)}
    (hranges : ∀ c ∈ classes, ∃ range, c.domain.range = .ok range)
    (h : Observes classes observations) :
    (classes.map fun c ↦ (c.count.toNat : Int) * c.exactLowerBound).sum ≤
        totalCost (·.baseline) classes observations -
          totalCost (·.selected) classes observations ∧
      (classes.map fun c ↦ (c.count.toNat : Int)).sum =
        (observations.map fun values ↦ (values.length : Int)).sum := by
  induction h with
  | nil => simp [totalCost]
  | @cons costClass values classes observations hclass _ ih =>
      obtain ⟨hlength, hvalues⟩ := hclass
      obtain ⟨range, hrange⟩ := hranges costClass List.mem_cons_self
      obtain ⟨hle, hcount⟩ := ih fun c hc ↦ hranges c (List.mem_cons_of_mem _ hc)
      have hgain : ∀ vs : List UInt32, (∀ v ∈ vs, costClass.domain.Contains v) →
          (vs.length : Int) * costClass.exactLowerBound ≤
            (vs.map costClass.baseline.cost).sum - (vs.map costClass.selected.cost).sum := by
        intro vs
        induction vs with
        | nil => simp
        | cons v vs ihvs =>
            intro hvs
            have hv := costClass.exactLowerBound_le hrange (hvs v List.mem_cons_self)
            have hrest := ihvs fun w hw ↦ hvs w (List.mem_cons_of_mem _ hw)
            rw [CkProfileCostClass.benefit] at hv
            rw [List.map_cons, List.map_cons, List.sum_cons, List.sum_cons, List.length_cons,
              Int.natCast_add, Int.add_mul]
            omega
      have hfirst := hgain values hvalues
      rw [hlength] at hfirst
      simp only [totalCost, List.map_cons, List.sum_cons, List.zipWith_cons_cons] at hle ⊢
      refine ⟨by omega, ?_⟩
      rw [hlength, hcount]

/-- What is selected gains at least the net benefit, whatever the values of the observations,
and the benefit is computed exactly. -/
theorem verifyProfileCostProposal_conservative (proposal : CkProfileCostProposal)
    (netBenefit : U128) (h : verifyProfileCostProposal proposal = .ok (.select netBenefit)) :
    0 < netBenefit.toNat ∧ (netBenefit.toNat : Int) = proposal.exactNet ∧
      ∀ observations, Observes proposal.classes observations → (netBenefit.toNat : Int) ≤
        totalCost (·.baseline) proposal.classes observations -
          totalCost (·.selected) proposal.classes observations -
          totalGuard proposal.guardCost observations := by
  obtain ⟨hexact, hpositive, hranges⟩ := verify_select h
  refine ⟨hpositive, hexact, ?_⟩
  intro observations hobserves
  obtain ⟨hle, hcount⟩ := exactNet_le hranges hobserves
  rw [hexact, CkProfileCostProposal.exactNet, totalGuard, hcount]
  omega

theorem verifyProfileCostProposal_conservative_bucket :
    let proposal : CkProfileCostProposal := {
      classes := [⟨10, .histogramBucket 3, ⟨0, 10⟩, ⟨5, 2⟩⟩]
      guardCost := 1
      reportedNet := ⟨false, 180⟩ }
    verifyProfileCostProposal proposal = .ok (.select 180) ∧
      ∀ observations, Observes proposal.classes observations → 180 ≤
        totalCost (·.baseline) proposal.classes observations -
          totalCost (·.selected) proposal.classes observations -
          totalGuard proposal.guardCost observations := by
  intro proposal
  have hverify : verifyProfileCostProposal proposal = .ok (.select 180) := by decide
  exact ⟨hverify, (verifyProfileCostProposal_conservative proposal 180 hverify).2.2⟩

end CalcKernel
