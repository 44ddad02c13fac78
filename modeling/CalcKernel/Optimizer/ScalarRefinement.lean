import CalcKernel.Optimizer.ScalarTransfer

/-!
# Comparisons in the scalar domain

What a comparison of two abstract integers gives, and what is left of them on either edge
of a branch on it.  The answer is right for all integers they stand for, and those for
which the branch takes an edge stay on that edge.
-/

namespace CalcKernel

/-! ## The answer -/

inductive BoolLattice where
  | alwaysFalse | alwaysTrue | unknown
deriving DecidableEq, Repr

namespace BoolLattice

protected def not : BoolLattice → BoolLattice
  | .alwaysFalse => .alwaysTrue
  | .alwaysTrue => .alwaysFalse
  | .unknown => .unknown

/-- The answer does not rule out the outcome. -/
def Agrees (answer : BoolLattice) (outcome : Bool) : Prop :=
  (answer = .alwaysTrue → outcome = true) ∧ (answer = .alwaysFalse → outcome = false)

variable {answer : BoolLattice} {outcome : Bool}

theorem agrees_unknown : unknown.Agrees outcome := by
  constructor <;> exact fun h ↦ by cases h

theorem Agrees.not (h : answer.Agrees outcome) : answer.not.Agrees (!outcome) := by
  cases answer with
  | alwaysFalse => exact ⟨fun _ ↦ (by rw [h.2 rfl, Bool.not_false]), fun heq ↦ (by cases heq)⟩
  | alwaysTrue => exact ⟨fun heq ↦ (by cases heq), fun _ ↦ (by rw [h.1 rfl, Bool.not_true])⟩
  | unknown => exact agrees_unknown

end BoolLattice

def compareOrdered (greatestLeft leastRight leastLeft greatestRight : Int) (allowEqual : Bool) :
    BoolLattice :=
  let always := if allowEqual then decide (greatestLeft ≤ leastRight)
    else decide (greatestLeft < leastRight)
  let impossible := if allowEqual then decide (greatestRight < leastLeft)
    else decide (greatestRight ≤ leastLeft)
  if always then .alwaysTrue else if impossible then .alwaysFalse else .unknown

/-- The answer for equality. -/
def compareEqual (left right : ScalarValue) : BoolLattice :=
  if left.interval.upper < right.interval.lower ∨ right.interval.upper < left.interval.lower then
    .alwaysFalse
  else if left.exactValue.isSome ∧ left.exactValue = right.exactValue then .alwaysTrue
  else .unknown

/-- The answer for an order, strict or not. -/
def compareLess (left right : ScalarValue) (allowEqual : Bool) : BoolLattice :=
  compareOrdered left.interval.upper right.interval.lower left.interval.lower right.interval.upper
    allowEqual

def scalarCompare (op : MirCompareOp) (left right : ScalarValue) :
    Except ScalarDomainError BoolLattice :=
  if left.typeNode ≠ right.typeNode then .error "comparison operands have different integer types"
  else .ok <| match op with
    | .eq => compareEqual left right
    | .ne => (compareEqual left right).not
    | .lt => compareLess left right false
    | .le => compareLess left right true
    | .gt => compareLess right left false
    | .ge => compareLess right left true

/-! ## The refinement -/

def refineLower (value : ScalarValue) (lower : Int) : Except ScalarDomainError ScalarValue :=
  if h : max lower value.interval.lower ≤ value.interval.upper then
    ScalarValue.fromInterval value.typeNode ⟨max lower value.interval.lower, value.interval.upper, h⟩
  else .ok value

def refineUpper (value : ScalarValue) (upper : Int) : Except ScalarDomainError ScalarValue :=
  if h : value.interval.lower ≤ min upper value.interval.upper then
    ScalarValue.fromInterval value.typeNode ⟨value.interval.lower, min upper value.interval.upper, h⟩
  else .ok value

/-- The two operands on the edge taken when the comparison holds, and on the other one. -/
abbrev ScalarBranchRefinement := (ScalarValue × ScalarValue) × (ScalarValue × ScalarValue)

def refineLt (left right : ScalarValue) : Except ScalarDomainError ScalarBranchRefinement := do
  let takenLeft ← refineUpper left (right.interval.upper - 1)
  let takenRight ← refineLower right (left.interval.lower + 1)
  let otherLeft ← refineLower left right.interval.lower
  let otherRight ← refineUpper right left.interval.upper
  return ((takenLeft, takenRight), (otherLeft, otherRight))

def refineLe (left right : ScalarValue) : Except ScalarDomainError ScalarBranchRefinement := do
  let takenLeft ← refineUpper left right.interval.upper
  let takenRight ← refineLower right left.interval.lower
  let otherLeft ← refineLower left (right.interval.lower + 1)
  let otherRight ← refineUpper right (left.interval.upper - 1)
  return ((takenLeft, takenRight), (otherLeft, otherRight))

/-- The only integer of the other operand, where it has one. -/
def refineTo (value other : ScalarValue) : Except ScalarDomainError ScalarValue :=
  match other.exactValue with
  | some exact => ScalarValue.constant value.typeNode exact
  | none => .ok value

def refineEq (left right : ScalarValue) : Except ScalarDomainError ScalarBranchRefinement := do
  let takenLeft ← refineTo left right
  let takenRight ← refineTo right left
  return ((takenLeft, takenRight), (left, right))

/-- The operands the other way round. -/
def ScalarBranchRefinement.swap (r : ScalarBranchRefinement) : ScalarBranchRefinement :=
  (r.1.swap, r.2.swap)

def refineScalarComparison (op : MirCompareOp) (left right : ScalarValue) :
    Except ScalarDomainError ScalarBranchRefinement :=
  if left.typeNode ≠ right.typeNode then .error "comparison operands have different integer types"
  else match op with
    | .lt => refineLt left right
    | .le => refineLe left right
    | .gt => (refineLt right left).map ScalarBranchRefinement.swap
    | .ge => (refineLe right left).map ScalarBranchRefinement.swap
    | .eq => refineEq left right
    | .ne => (refineEq left right).map Prod.swap

/-! ## The answer is right -/

section Answer

variable {left right : ScalarValue} {env : ValueId → Int} {x y : Int}

theorem compareEqual_agrees (hx : left.Concretizes env x) (hy : right.Concretizes env y) :
    (compareEqual left right).Agrees (decide (x = y)) := by
  obtain ⟨hxLow, hxHigh⟩ := hx.interval
  obtain ⟨hyLow, hyHigh⟩ := hy.interval
  unfold compareEqual
  split
  · rename_i hapart
    refine ⟨fun h ↦ (by cases h), fun _ ↦ decide_eq_false ?_⟩
    omega
  · split
    · rename_i hexact
      obtain ⟨c, hc⟩ := Option.isSome_iff_exists.mp hexact.1
      have hsame : x = y :=
        (hx.eq_of_exactValue hc).trans (hy.eq_of_exactValue (hexact.2 ▸ hc)).symm
      exact ⟨fun _ ↦ decide_eq_true hsame, fun h ↦ (by cases h)⟩
    · exact BoolLattice.agrees_unknown

theorem compareLess_agrees (allowEqual : Bool) (hx : left.Concretizes env x)
    (hy : right.Concretizes env y) :
    (compareLess left right allowEqual).Agrees
      (if allowEqual then decide (x ≤ y) else decide (x < y)) := by
  obtain ⟨hxLow, hxHigh⟩ := hx.interval
  obtain ⟨hyLow, hyHigh⟩ := hy.interval
  unfold compareLess compareOrdered
  cases allowEqual with
  | false | true =>
      simp only [Bool.false_eq_true, if_false, if_true, decide_eq_true_eq]
      split
      · refine ⟨fun _ ↦ decide_eq_true ?_, fun h ↦ (by cases h)⟩
        omega
      · split
        · refine ⟨fun h ↦ (by cases h), fun _ ↦ decide_eq_false ?_⟩
          omega
        · exact BoolLattice.agrees_unknown

end Answer

/-! ## The refinement keeps what takes the edge -/

theorem ScalarValue.Concretizes.narrow (v : ScalarValue) (interval : ScalarInterval)
    (hlower : v.interval.lower ≤ interval.lower) (hupper : interval.upper ≤ v.interval.upper) :
    ∃ refined, ScalarValue.fromInterval v.typeNode interval = .ok refined ∧
      ∀ env x, v.Concretizes env x → interval.Contains x → refined.Concretizes env x := by
  have hvalid := interval.valid
  have hin : v.typeNode.Contains interval.lower ∧ v.typeNode.Contains interval.upper := by
    obtain ⟨⟨hlow, hhigh⟩, hlow', hhigh'⟩ := v.inType
    unfold IntegerType.Contains
    omega
  refine ⟨.ofInterval v.typeNode interval hin, ?_, fun env x hx hcontains ↦ ?_⟩
  · rw [ScalarValue.fromInterval, dif_pos hin.1, dif_pos hin.2]
  · exact ScalarValue.ofInterval_concretizes_iff.mpr hcontains

theorem refineLower_sound (v : ScalarValue) (lower : Int) :
    ∃ refined, refineLower v lower = .ok refined ∧
      ∀ env x, v.Concretizes env x → lower ≤ x → refined.Concretizes env x := by
  unfold refineLower
  split
  · rename_i h
    obtain ⟨refined, hrefined, hsound⟩ := ScalarValue.Concretizes.narrow v
      ⟨max lower v.interval.lower, v.interval.upper, h⟩ (le_max_right _ _) le_rfl
    exact ⟨refined, hrefined, fun env x hx hle ↦
      hsound env x hx ⟨max_le hle hx.interval.1, hx.interval.2⟩⟩
  · exact ⟨v, rfl, fun env x hx _ ↦ hx⟩

theorem refineUpper_sound (v : ScalarValue) (upper : Int) :
    ∃ refined, refineUpper v upper = .ok refined ∧
      ∀ env x, v.Concretizes env x → x ≤ upper → refined.Concretizes env x := by
  unfold refineUpper
  split
  · rename_i h
    obtain ⟨refined, hrefined, hsound⟩ := ScalarValue.Concretizes.narrow v
      ⟨v.interval.lower, min upper v.interval.upper, h⟩ le_rfl (min_le_right _ _)
    exact ⟨refined, hrefined, fun env x hx hle ↦
      hsound env x hx ⟨hx.interval.1, le_min hle hx.interval.2⟩⟩
  · exact ⟨v, rfl, fun env x hx _ ↦ hx⟩

/-- What is left of the operands on an edge stands for all pairs that take it. -/
def KeepsEdge (op : MirCompareOp) (outcome : Bool) (left right : ScalarValue)
    (refined : ScalarValue × ScalarValue) : Prop :=
  ∀ env x y, left.Concretizes env x → right.Concretizes env y → compareInt op x y = outcome →
    refined.1.Concretizes env x ∧ refined.2.Concretizes env y

def KeepsEdges (op : MirCompareOp) (left right : ScalarValue) (r : ScalarBranchRefinement) :
    Prop :=
  KeepsEdge op true left right r.1 ∧ KeepsEdge op false left right r.2

section Refinement

variable {left right : ScalarValue}

theorem refineLt_sound (left right : ScalarValue) :
    ∃ r, refineLt left right = .ok r ∧ KeepsEdges .lt left right r := by
  obtain ⟨takenLeft, h₁, hTakenLeft⟩ := refineUpper_sound left (right.interval.upper - 1)
  obtain ⟨takenRight, h₂, hTakenRight⟩ := refineLower_sound right (left.interval.lower + 1)
  obtain ⟨otherLeft, h₃, hOtherLeft⟩ := refineLower_sound left right.interval.lower
  obtain ⟨otherRight, h₄, hOtherRight⟩ := refineUpper_sound right left.interval.upper
  refine ⟨((takenLeft, takenRight), (otherLeft, otherRight)), ?_, ?_, ?_⟩
  · rw [refineLt, h₁, h₂, h₃, h₄]
    rfl
  · intro env x y hx hy houtcome
    have hlt : x < y := of_decide_eq_true houtcome
    have hxLow := hx.interval.1
    have hyHigh := hy.interval.2
    exact ⟨hTakenLeft env x hx (by omega), hTakenRight env y hy (by omega)⟩
  · intro env x y hx hy houtcome
    have hge : ¬ x < y := of_decide_eq_false houtcome
    have hxHigh := hx.interval.2
    have hyLow := hy.interval.1
    exact ⟨hOtherLeft env x hx (by omega), hOtherRight env y hy (by omega)⟩

theorem refineLe_sound (left right : ScalarValue) :
    ∃ r, refineLe left right = .ok r ∧ KeepsEdges .le left right r := by
  obtain ⟨takenLeft, h₁, hTakenLeft⟩ := refineUpper_sound left right.interval.upper
  obtain ⟨takenRight, h₂, hTakenRight⟩ := refineLower_sound right left.interval.lower
  obtain ⟨otherLeft, h₃, hOtherLeft⟩ := refineLower_sound left (right.interval.lower + 1)
  obtain ⟨otherRight, h₄, hOtherRight⟩ := refineUpper_sound right (left.interval.upper - 1)
  refine ⟨((takenLeft, takenRight), (otherLeft, otherRight)), ?_, ?_, ?_⟩
  · rw [refineLe, h₁, h₂, h₃, h₄]
    rfl
  · intro env x y hx hy houtcome
    have hle : x ≤ y := of_decide_eq_true houtcome
    have hxLow := hx.interval.1
    have hyHigh := hy.interval.2
    exact ⟨hTakenLeft env x hx (by omega), hTakenRight env y hy (by omega)⟩
  · intro env x y hx hy houtcome
    have hgt : ¬ x ≤ y := of_decide_eq_false houtcome
    have hxHigh := hx.interval.2
    have hyLow := hy.interval.1
    exact ⟨hOtherLeft env x hx (by omega), hOtherRight env y hy (by omega)⟩

theorem refineTo_sound (htype : left.typeNode = right.typeNode) :
    ∃ refined, refineTo left right = .ok refined ∧
      ∀ env x, left.Concretizes env x → right.Concretizes env x → refined.Concretizes env x := by
  unfold refineTo
  cases hexact : right.exactValue with
  | none => exact ⟨left, rfl, fun env x hx _ ↦ hx⟩
  | some c =>
      have hin : left.typeNode.Contains c := by
        unfold ScalarValue.exactValue at hexact
        split at hexact
        · cases hexact
          exact htype ▸ right.inType.1
        · cases hexact
      obtain ⟨refined, hrefined⟩ : ∃ refined, ScalarValue.constant left.typeNode c = .ok refined :=
        ⟨_, dif_pos hin⟩
      refine ⟨refined, hrefined, fun env x _ hx ↦ ?_⟩
      rw [hx.eq_of_exactValue hexact]
      exact ScalarValue.constant_concretizes hrefined

theorem refineEq_sound (htype : left.typeNode = right.typeNode) :
    ∃ r, refineEq left right = .ok r ∧ KeepsEdges .eq left right r := by
  obtain ⟨takenLeft, h₁, hTakenLeft⟩ := refineTo_sound htype
  obtain ⟨takenRight, h₂, hTakenRight⟩ := refineTo_sound htype.symm
  refine ⟨((takenLeft, takenRight), (left, right)), ?_, ?_, ?_⟩
  · rw [refineEq, h₁, h₂]
    rfl
  · intro env x y hx hy houtcome
    obtain rfl : x = y := of_decide_eq_true houtcome
    exact ⟨hTakenLeft env x hx hy, hTakenRight env x hy hx⟩
  · exact fun env x y hx hy _ ↦ ⟨hx, hy⟩

theorem KeepsEdges.swap {op reversed : MirCompareOp} {r : ScalarBranchRefinement}
    (h : KeepsEdges op right left r)
    (hreversed : ∀ x y, compareInt reversed x y = compareInt op y x) :
    KeepsEdges reversed left right r.swap := by
  constructor
  · intro env x y hx hy houtcome
    exact (h.1 env y x hy hx ((hreversed x y).symm.trans houtcome)).symm
  · intro env x y hx hy houtcome
    exact (h.2 env y x hy hx ((hreversed x y).symm.trans houtcome)).symm

end Refinement

/-- The answer of a comparison is right, and what is left of the operands on either edge stands for
every pair that takes it; where nothing is left, no pair does. -/
theorem scalarComparison_sound (op : MirCompareOp) (left right : ScalarValue) :
    (left.typeNode ≠ right.typeNode →
      (∃ e, scalarCompare op left right = .error e) ∧
        ∃ e, refineScalarComparison op left right = .error e) ∧
    (left.typeNode = right.typeNode → ∃ answer r,
      scalarCompare op left right = .ok answer ∧ refineScalarComparison op left right = .ok r ∧
      (∀ env x y, left.Concretizes env x → right.Concretizes env y →
        answer.Agrees (compareInt op x y)) ∧
      KeepsEdges op left right r ∧
      ∀ env x y, left.Concretizes env x → right.Concretizes env y →
        ((∀ z, ¬ r.1.1.Concretizes env z) ∨ (∀ z, ¬ r.1.2.Concretizes env z) →
          compareInt op x y = false) ∧
        ((∀ z, ¬ r.2.1.Concretizes env z) ∨ (∀ z, ¬ r.2.2.Concretizes env z) →
          compareInt op x y = true)) := by
  refine ⟨fun htype ↦ ⟨⟨_, if_pos htype⟩, _, if_pos htype⟩, fun htype ↦ ?_⟩
  have hcompare : ∃ answer, scalarCompare op left right = .ok answer ∧
      ∀ env x y, left.Concretizes env x → right.Concretizes env y →
        answer.Agrees (compareInt op x y) := by
    refine ⟨_, if_neg (not_not_intro htype), fun env x y hx hy ↦ ?_⟩
    cases op with
    | eq => exact compareEqual_agrees hx hy
    | ne => simpa [compareInt] using (compareEqual_agrees hx hy).not
    | lt => exact compareLess_agrees false hx hy
    | le => exact compareLess_agrees true hx hy
    | gt => exact compareLess_agrees false hy hx
    | ge => exact compareLess_agrees true hy hx
  have hrefine : ∃ r, refineScalarComparison op left right = .ok r ∧ KeepsEdges op left right r := by
    unfold refineScalarComparison
    rw [if_neg (not_not_intro htype)]
    cases op with
    | lt => exact refineLt_sound left right
    | le => exact refineLe_sound left right
    | gt =>
        obtain ⟨r, hr, hkeeps⟩ := refineLt_sound right left
        exact ⟨r.swap, by rw [hr]; rfl, hkeeps.swap fun _ _ ↦ rfl⟩
    | ge =>
        obtain ⟨r, hr, hkeeps⟩ := refineLe_sound right left
        exact ⟨r.swap, by rw [hr]; rfl, hkeeps.swap fun _ _ ↦ rfl⟩
    | eq => exact refineEq_sound htype
    | ne =>
        -- the edges of equality the other way round
        obtain ⟨r, hr, hkeeps⟩ := refineEq_sound htype
        refine ⟨Prod.swap r, by rw [hr]; rfl, ?_, ?_⟩
        · intro env x y hx hy houtcome
          exact hkeeps.2 env x y hx hy (by simpa [compareInt] using houtcome)
        · intro env x y hx hy houtcome
          exact hkeeps.1 env x y hx hy (by simpa [compareInt] using houtcome)
  obtain ⟨answer, hanswer, hagrees⟩ := hcompare
  obtain ⟨r, hr, hkeeps⟩ := hrefine
  refine ⟨answer, r, hanswer, hr, hagrees, hkeeps, fun env x y hx hy ↦ ?_⟩
  constructor <;> intro hempty
  · by_contra htaken
    obtain ⟨hleft, hright⟩ := hkeeps.1 env x y hx hy (by simpa using htaken)
    exact hempty.elim (fun h ↦ h x hleft) fun h ↦ h y hright
  · by_contra hother
    obtain ⟨hleft, hright⟩ := hkeeps.2 env x y hx hy (by simpa using hother)
    exact hempty.elim (fun h ↦ h x hleft) fun h ↦ h y hright

end CalcKernel
