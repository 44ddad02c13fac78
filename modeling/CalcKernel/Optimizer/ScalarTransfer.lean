import CalcKernel.Lib.Assoc
import CalcKernel.Optimizer.ScalarDomain

/-!
# What the scalar transfer may conclude

A transfer is sound for two abstract operands when what it returns stands for every
result of the operation on integers the operands stand for, and its failure is right.
It is, except for a checked division by a range around zero: there the quotients are
given the interval of the dividend.
-/

namespace CalcKernel

/-! ## The operation -/

/-- Division by zero fails, and so does dividing the least signed integer by minus one. -/
def DivisionFails (op : MirBinaryOp) (t : IntegerType) (x y : Int) : Prop :=
  (op = .div ∨ op = .mod) ∧ (y = 0 ∨ t.isSigned = true ∧ x = t.minimum ∧ y = -1)

instance (op : MirBinaryOp) (t : IntegerType) (x y : Int) : Decidable (DivisionFails op t x y) :=
  inferInstanceAs (Decidable (_ ∧ _))

/-- The result of an operation on integers of a type, or its failure. -/
def concreteBinary (op : MirBinaryOp) (semantics : KirArithmeticSemantics) (t : IntegerType)
    (x y : Int) : Option Int :=
  if DivisionFails op t x y then none
  else
    (exactBinary op x y).bind fun z ↦
      match semantics with
      | .modular => some (t.wrap z)
      | .checked => if t.Contains z then some z else none
      | .strictFloat => none

variable {op : MirBinaryOp} {semantics : KirArithmeticSemantics} {t : IntegerType}
  {left right : ScalarValue} {l r m : ScalarInterval} {env : ValueId → Int} {x y z : Int}

theorem IntegerType.Contains.signed_of_neg (h : t.Contains x) (hneg : x < 0) : t.isSigned = true := by
  cases t with
  | i32 | i64 => exact Eq.refl _
  | u32 | u64 => exact absurd h.1 (by simpa [IntegerType.minimum] using hneg)

/-- A quotient fits the type of its operands but for the least signed integer by minus one. -/
theorem IntegerType.Contains.tdiv (hx : t.Contains x) (hy : t.Contains y)
    (h : ¬ (t.isSigned = true ∧ x = t.minimum ∧ y = -1)) : t.Contains (x.tdiv y) := by
  have habs := Int.natAbs_tdiv_le_natAbs x y
  by_cases hneg : y = -1
  · subst hneg
    have hsigned := hy.signed_of_neg (by decide)
    have hquotient : x.tdiv (-1) = -x := by rw [Int.tdiv_neg, Int.tdiv_one]
    rw [hquotient]
    have hne : x ≠ t.minimum := fun heq ↦ h ⟨hsigned, heq, Eq.refl _⟩
    cases t with
    | i32 | i64 =>
        simp only [IntegerType.Contains, IntegerType.minimum, IntegerType.maximum] at hx hne ⊢
        omega
    | u32 | u64 => cases hsigned
  · have hsmaller : 2 ≤ y.natAbs → (x.tdiv y).natAbs ≤ x.natAbs / 2 := by
      intro htwo
      rw [Int.natAbs_tdiv]
      exact Nat.div_le_div_left htwo (by decide)
    have hone : y = 1 → x.tdiv y = x := by
      rintro rfl
      exact Int.tdiv_one x
    have hzero : y = 0 → x.tdiv y = 0 := by
      rintro rfl
      exact Int.tdiv_zero x
    cases t with
    | i32 | i64 =>
        simp only [IntegerType.Contains, IntegerType.minimum, IntegerType.maximum] at hx ⊢
        omega
    | u32 | u64 =>
        simp only [IntegerType.Contains, IntegerType.minimum, IntegerType.maximum] at hx hy ⊢
        have hnonneg := Int.tdiv_nonneg hx.1 hy.1
        omega

/-- The operation is the one KIR instructions run. -/
theorem integerBinary_of_concreteBinary (hx : t.Contains x) (hy : t.Contains y)
    (h : concreteBinary op semantics t x y = some z) (arity : Nat) :
    ∃ rest, integerBinary op semantics t x y arity = some (.int t z :: rest) := by
  unfold concreteBinary at h
  split at h
  · cases h
  · rename_i hfails
    obtain ⟨w, hw, h⟩ := Option.bind_eq_some_iff.mp h
    cases semantics with
    | modular =>
        cases h
        exact ⟨[], by simp [integerBinary, hw]⟩
    | strictFloat => cases h
    | checked =>
        dsimp only at h
        split at h
        · cases h
          cases op with
          | add | sub | mul =>
              cases hw
              exact ⟨[.bool false], by simp [integerBinary, checkedResult, *]⟩
          | div | mod =>
              simp only [DivisionFails, or_true, true_or, true_and, not_or] at hfails
              have hquotient := hx.tdiv hy hfails.2
              exact ⟨[], by simp [integerBinary, hw, hfails.1, hquotient]⟩
        · cases h

/-! ## Bounds of the mathematical result -/

theorem ScalarInterval.contains_of_hullOf {values : List Int}
    (h : ScalarInterval.hullOf values = .ok m) (hlow : ∃ p ∈ values, p ≤ z)
    (hhigh : ∃ p ∈ values, z ≤ p) : m.Contains z := by
  obtain ⟨hlower, hupper⟩ := ScalarInterval.new_eq_ok.mp h
  obtain ⟨p, hp, hpz⟩ := hlow
  obtain ⟨q, hq, hzq⟩ := hhigh
  have hmin : values.min?.getD 0 ≤ p := by
    rw [List.min?_eq_some_min (List.ne_nil_of_mem hp), Option.getD_some]
    exact List.min_le_of_mem hp
  have hmax : q ≤ values.max?.getD 0 := by
    rw [List.max?_eq_some_max (List.ne_nil_of_mem hp), Option.getD_some]
    exact List.le_max_of_mem hq
  rw [ScalarInterval.Contains, hlower, hupper]
  exact ⟨hmin.trans hpz, hzq.trans hmax⟩

theorem contains_mul (h : mathematicalInterval .mul l r = .ok m) (hx : l.Contains x)
    (hy : r.Contains y) : m.Contains (x * y) := by
  obtain ⟨hlow, hhigh⟩ := Lib.between_corners (f := fun x y : Int ↦ x * y)
    (fun y _ ↦ Lib.oneWay_mul_left y _) (fun x _ ↦ Lib.oneWay_mul_right x _) hx hy
  exact ScalarInterval.contains_of_hullOf h hlow hhigh

theorem contains_div (h : mathematicalInterval .div l r = .ok m) (hr : ¬ r.Contains 0)
    (hx : l.Contains x) (hy : r.Contains y) : m.Contains (x.tdiv y) := by
  have hsign : (∀ y ∈ Set.Icc r.lower r.upper, 0 < y) ∨ ∀ y ∈ Set.Icc r.lower r.upper, y < 0 := by
    rcases lt_or_ge 0 r.lower with hpos | hneg
    · exact Or.inl fun y hy ↦ lt_of_lt_of_le hpos hy.1
    · refine Or.inr fun y hy ↦ lt_of_le_of_lt hy.2 ?_
      exact lt_of_not_ge fun hupper ↦ hr ⟨hneg, hupper⟩
  obtain ⟨hlow, hhigh⟩ := Lib.between_corners (f := fun x y : Int ↦ x.tdiv y)
    (fun y _ ↦ Lib.oneWay_tdiv_left y _) (fun x _ ↦ Lib.oneWay_tdiv_right x hsign) hx hy
  rw [mathematicalInterval, if_neg (show ¬ (r.lower ≤ 0 ∧ 0 ≤ r.upper) from hr)] at h
  exact ScalarInterval.contains_of_hullOf h hlow hhigh

theorem contains_mod (h : mathematicalInterval .mod l r = .ok m) (hx : l.Contains x)
    (hy : r.Contains y) (hne : y ≠ 0) : m.Contains (x.tmod y) := by
  unfold mathematicalInterval at h
  dsimp only at h
  split at h
  · rename_i hexact
    rw [← ScalarInterval.eq_of_isExact hexact.1 hx, ← ScalarInterval.eq_of_isExact hexact.2 hy,
      exactScalarBinary, if_neg hne] at h
    cases h
    exact ScalarInterval.contains_exact.mpr (Eq.refl _)
  · obtain ⟨hlower, hupper⟩ := ScalarInterval.new_eq_ok.mp h
    have hbound := Lib.tmod_lt_bound (x := x)
      (m := max (max (max r.lower (-r.lower)) r.upper) (-r.upper)) hne
      (by have := hy.1; omega) (by have := hy.2; omega)
    rw [ScalarInterval.Contains, hlower, hupper]
    omega

/-- The interval of the mathematical result holds it, for divisors away from zero. -/
theorem mathematicalInterval_contains (h : mathematicalInterval op l r = .ok m)
    (hx : l.Contains x) (hy : r.Contains y) (hz : exactBinary op x y = some z)
    (hdiv : op = .div → ¬ r.Contains 0) : m.Contains z := by
  cases op with
  | add | sub =>
      cases hz
      obtain ⟨hlower, hupper⟩ := ScalarInterval.new_eq_ok.mp h
      have := hx.1
      have := hx.2
      have := hy.1
      have := hy.2
      rw [ScalarInterval.Contains, hlower, hupper]
      omega
  | mul =>
      cases hz
      exact contains_mul h hx hy
  | div =>
      simp only [exactBinary] at hz
      split at hz
      · cases hz
      · cases hz
        exact contains_div h (hdiv (Eq.refl _)) hx hy
  | mod =>
      simp only [exactBinary] at hz
      split at hz
      · cases hz
      · rename_i hne
        cases hz
        exact contains_mod h hx hy hne

/-! ## Failures -/

theorem not_contains_zero (hdivision : divisionFailure op t left right = .none)
    (hop : op = .div ∨ op = .mod) : ¬ right.interval.Contains 0 := by
  intro hzero
  unfold divisionFailure at hdivision
  rw [if_neg (by rcases hop with rfl | rfl <;> decide)] at hdivision
  dsimp only at hdivision
  split at hdivision
  · cases hdivision
  · rw [if_pos] at hdivision
    · cases hdivision
    · exact Or.inl hzero

theorem not_divisionFails (hdivision : divisionFailure op t left right = .none)
    (hx : left.Concretizes env x) (hy : right.Concretizes env y) : ¬ DivisionFails op t x y := by
  rintro ⟨hop, hfails⟩
  unfold divisionFailure at hdivision
  rw [if_neg (by rcases hop with rfl | rfl <;> decide)] at hdivision
  dsimp only at hdivision
  split at hdivision
  · cases hdivision
  · rw [if_pos] at hdivision
    · cases hdivision
    · rcases hfails with rfl | ⟨hsigned, rfl, rfl⟩
      · exact Or.inl hy.interval
      · exact Or.inr ⟨hsigned, hx.interval.1, hx.interval.2, hy.interval.1, hy.interval.2⟩

theorem divisionFails_of_always (hdivision : divisionFailure op right.typeNode left right = .always)
    (hx : left.Concretizes env x) (hy : right.Concretizes env y) :
    DivisionFails op right.typeNode x y := by
  unfold divisionFailure at hdivision
  split at hdivision
  · cases hdivision
  · rename_i hop
    refine ⟨by tauto, ?_⟩
    dsimp only at hdivision
    split at hdivision
    · rename_i halways
      rcases halways with hzero | ⟨hminimum, hminus⟩
      · exact Or.inl (hy.eq_of_exactValue hzero)
      · obtain rfl := hx.eq_of_exactValue hminimum
        obtain rfl := hy.eq_of_exactValue hminus
        exact Or.inr ⟨hy.inType.signed_of_neg (by decide), Eq.refl _, Eq.refl _⟩
    · split at hdivision <;> cases hdivision

theorem contains_of_rangeFailure_none (h : rangeFailure t m = .none) (hz : m.Contains z) :
    t.Contains z := by
  unfold rangeFailure at h
  split at h
  · cases h
  · split at h
    · cases h
    · rename_i hin
      push Not at hin
      exact ⟨hin.1.trans hz.1, hz.2.trans hin.2⟩

theorem not_contains_of_rangeFailure_always (h : rangeFailure t m = .always) (hz : m.Contains z) :
    ¬ t.Contains z := by
  unfold rangeFailure at h
  split at h
  · rename_i hout
    rintro ⟨hlow, hhigh⟩
    rcases hout with hout | hout
    · exact absurd (hlow.trans hz.2) (not_le.mpr hout)
    · exact absurd (hz.1.trans hhigh) (not_le.mpr hout)
  · split at h <;> cases h

/-! ## Results -/

/-- The integers of a plain interval are those inside it. -/
theorem ScalarValue.ofInterval_concretizes_iff
    {h : t.Contains m.lower ∧ t.Contains m.upper} :
    (ScalarValue.ofInterval t m h).Concretizes env z ↔ m.Contains z := by
  constructor
  · exact fun hz ↦ hz.interval
  · intro hz
    refine ⟨hz, ?_, ?_, ?_⟩
    · dsimp only [ScalarValue.ofInterval]
      split
      · exact ScalarCongruence.contains_exact.mpr (ScalarInterval.eq_of_isExact ‹_› hz)
      · exact ScalarCongruence.contains_top
    · dsimp only [ScalarValue.ofInterval]
      split
      · rw [ScalarInterval.eq_of_isExact ‹_› hz]
        exact ScalarKnownBits.matches_exact
      · exact ScalarKnownBits.matches_unknown
    · intro form hform
      dsimp only [ScalarValue.ofInterval] at hform
      split at hform
      · cases hform
        rw [AffineForm.eval_integer]
        exact ScalarInterval.eq_of_isExact ‹_› hz
      · cases hform

theorem ScalarValue.fromInterval_eq_ok {v : ScalarValue}
    (h : ScalarValue.fromInterval t m = .ok v) :
    ∃ hin : t.Contains m.lower ∧ t.Contains m.upper, v = ScalarValue.ofInterval t m hin := by
  unfold ScalarValue.fromInterval at h
  split at h
  · split at h
    · cases h
      exact ⟨⟨‹_›, ‹_›⟩, Eq.refl _⟩
    · cases h
  · cases h

theorem ScalarValue.constant_concretizes {v : ScalarValue}
    (h : ScalarValue.constant t z = .ok v) : v.Concretizes env z := by
  unfold ScalarValue.constant at h
  split at h
  · cases h
    refine ⟨ScalarInterval.contains_exact.mpr (Eq.refl _),
      ScalarCongruence.contains_exact.mpr (Eq.refl _), ScalarKnownBits.matches_exact, ?_⟩
    intro form hform
    cases hform
    rw [AffineForm.eval_integer]
  · cases h

theorem ScalarValue.constant_failure {v : ScalarValue}
    (h : ScalarValue.constant t z = .ok v) : v.failure = .none := by
  unfold ScalarValue.constant at h
  split at h
  · cases h
    exact Eq.refl _
  · cases h

/-- The congruence of the operands is one of the mathematical result. -/
theorem congruence_contains (hx : left.Concretizes env x) (hy : right.Concretizes env y)
    (hz : exactBinary op x y = some z) :
    (match op with
      | .add => left.congruence.add right.congruence
      | .sub => left.congruence.sub right.congruence
      | .mul => left.congruence.multiply right.congruence
      | .div | .mod => ScalarCongruence.top).Contains z := by
  cases op with
  | add =>
      cases hz
      exact ScalarCongruence.contains_combine false hx.congruence hy.congruence
  | sub =>
      cases hz
      exact ScalarCongruence.contains_combine true hx.congruence hy.congruence
  | mul =>
      cases hz
      dsimp only
      unfold ScalarCongruence.multiply
      split
      · rename_i hzero
        have hx := ScalarCongruence.contains_iff.mp hx.congruence
        have hy := ScalarCongruence.contains_iff.mp hy.congruence
        rw [hzero.1, zero_dvd_iff, sub_eq_zero] at hx
        rw [hzero.2, zero_dvd_iff, sub_eq_zero] at hy
        rw [ScalarCongruence.contains_exact, hx, hy]
      · exact ScalarCongruence.contains_top
  | div | mod => exact ScalarCongruence.contains_top

theorem eq_eval_transferAffine (hx : left.Concretizes env x) (hy : right.Concretizes env y)
    (hz : exactBinary op x y = some z) {form : AffineForm}
    (hform : transferAffine op left right = some form) : z = form.eval env := by
  cases op with
  | add =>
      obtain ⟨f, hf, hform⟩ := Option.bind_eq_some_iff.mp hform
      obtain ⟨g, hg, hform⟩ := Option.bind_eq_some_iff.mp hform
      cases hform
      cases hz
      rw [AffineForm.eval_add, ← hx.affine f hf, ← hy.affine g hg]
  | sub =>
      obtain ⟨f, hf, hform⟩ := Option.bind_eq_some_iff.mp hform
      obtain ⟨g, hg, hform⟩ := Option.bind_eq_some_iff.mp hform
      cases hform
      cases hz
      rw [AffineForm.eval_sub, ← hx.affine f hf, ← hy.affine g hg]
  | mul =>
      cases hz
      unfold transferAffine at hform
      dsimp only at hform
      split at hform
      · rename_i constant hconstant
        obtain ⟨g, hg, rfl⟩ := Option.map_eq_some_iff.mp hform
        rw [AffineForm.eval_scale, ← hy.affine g hg, hx.eq_of_exactValue hconstant, mul_comm]
      · obtain ⟨constant, hconstant, hform⟩ := Option.bind_eq_some_iff.mp hform
        obtain ⟨f, hf, rfl⟩ := Option.map_eq_some_iff.mp hform
        rw [AffineForm.eval_scale, ← hx.affine f hf, hy.eq_of_exactValue hconstant]
  | div | mod => cases hform

theorem fromTransferParts_concretizes {v : ScalarValue} {forceUnknown : Bool}
    (h : fromTransferParts op left right m forceUnknown = .ok v) (hx : left.Concretizes env x)
    (hy : right.Concretizes env y) (hz : exactBinary op x y = some z) (hmem : m.Contains z) :
    v.Concretizes env z := by
  obtain ⟨result, hresult, h⟩ := Lib.bind_eq_ok.mp h
  obtain ⟨hin, rfl⟩ := ScalarValue.fromInterval_eq_ok hresult
  have hplain : (ScalarValue.ofInterval left.typeNode m hin).Concretizes env z :=
    ScalarValue.ofInterval_concretizes_iff.mpr hmem
  cases h
  exact ⟨hplain.interval, congruence_contains hx hy hz, hplain.knownBits,
    fun form hform ↦ eq_eval_transferAffine hx hy hz hform⟩

theorem fromTransferParts_eq_ok {v : ScalarValue} {forceUnknown : Bool}
    (h : fromTransferParts op left right m forceUnknown = .ok v) :
    v.typeNode = left.typeNode ∧ v.interval = m ∧ v.failure = .none := by
  obtain ⟨result, hresult, h⟩ := Lib.bind_eq_ok.mp h
  obtain ⟨hin, rfl⟩ := ScalarValue.fromInterval_eq_ok hresult
  cases h
  exact ⟨Eq.refl _, Eq.refl _, Eq.refl _⟩

/-! ## The cases of the transfer -/

/-- How a transfer comes to its value. -/
inductive Transferred (op : MirBinaryOp) (semantics : KirArithmeticSemantics)
    (left right : ScalarValue) : ScalarValue → Prop where
  | fails (h : divisionFailure op left.typeNode left right = .always) :
      Transferred op semantics left right
        ((ScalarValue.unknownValue left.typeNode).withFailure .always)
  | checked {m : ScalarInterval} {result v : ScalarValue} (hsemantics : semantics = .checked)
      (hdivision : divisionFailure op left.typeNode left right ≠ .always)
      (hm : mathematicalInterval op left.interval right.interval = .ok m)
      (hresult : fromTransferParts op left right
        ((m.intersection (.forType left.typeNode)).getD (.forType left.typeNode)) false = .ok result)
      (hv : v.typeNode = result.typeNode ∧ v.interval = result.interval ∧
        v.congruence = result.congruence ∧ v.knownBits = result.knownBits ∧
        (v.affine = none ∨ v.affine = result.affine))
      (hfailure : v.failure =
        (divisionFailure op left.typeNode left right).max (rangeFailure left.typeNode m)) :
      Transferred op semantics left right v
  | modularMay (hsemantics : semantics = .modular)
      (hdivision : divisionFailure op left.typeNode left right = .may) :
      Transferred op semantics left right
        ((ScalarValue.unknownValue left.typeNode).withFailure .may)
  | modularWithin {m : ScalarInterval} {v : ScalarValue} (hsemantics : semantics = .modular)
      (hdivision : divisionFailure op left.typeNode left right = .none)
      (hm : mathematicalInterval op left.interval right.interval = .ok m)
      (hrange : rangeFailure left.typeNode m = .none)
      (hv : fromTransferParts op left right m false = .ok v) :
      Transferred op semantics left right v
  | modularExact {a b raw : Int} {result : ScalarValue} (hsemantics : semantics = .modular)
      (hdivision : divisionFailure op left.typeNode left right = .none)
      (hleft : left.exactValue = some a) (hright : right.exactValue = some b)
      (hraw : exactScalarBinary op a b = .ok raw)
      (hresult : ScalarValue.constant left.typeNode (left.typeNode.wrap raw) = .ok result) :
      Transferred op semantics left right { result with affine := none }
  | modularUnknown (hsemantics : semantics = .modular)
      (hdivision : divisionFailure op left.typeNode left right = .none) :
      Transferred op semantics left right (ScalarValue.unknownValue left.typeNode)

theorem scalarBinary_transferred {v : ScalarValue}
    (h : scalarBinary op semantics left right = .ok v) :
    left.typeNode = right.typeNode ∧ Transferred op semantics left right v := by
  unfold scalarBinary at h
  dsimp only at h
  split at h
  · cases h
  · rename_i htype
    refine ⟨not_not.mp htype, ?_⟩
    split at h
    · cases h
    · rename_i hstrict
      split at h
      · rename_i hdivision
        cases h
        rw [hdivision]
        exact .fails hdivision
      · rename_i hdivision
        obtain ⟨m, hm, h⟩ := Lib.bind_eq_ok.mp h
        split at h
        · rename_i hsemantics
          obtain ⟨result, hresult, h⟩ := Lib.bind_eq_ok.mp h
          cases h
          refine .checked hsemantics hdivision hm hresult ?_ ?_
          · split
            · exact ⟨Eq.refl _, Eq.refl _, Eq.refl _, Eq.refl _, Or.inl (Eq.refl _)⟩
            · exact ⟨Eq.refl _, Eq.refl _, Eq.refl _, Eq.refl _, Or.inr (Eq.refl _)⟩
          · split <;> exact Eq.refl _
        · rename_i hchecked
          have hsemantics : semantics = .modular := by
            cases semantics with
            | modular => exact Eq.refl _
            | checked => exact absurd (Eq.refl _) hchecked
            | strictFloat => exact absurd (Eq.refl _) hstrict
          split at h
          · rename_i hnone
            have hmay : divisionFailure op left.typeNode left right = .may := by
              cases hcase : divisionFailure op left.typeNode left right with
              | none => exact absurd hcase hnone
              | may => exact Eq.refl _
              | always => exact absurd hcase hdivision
            cases h
            rw [hmay]
            exact .modularMay hsemantics hmay
          · rename_i hnone
            have hnone := not_not.mp hnone
            split at h
            · rename_i hrange
              exact .modularWithin hsemantics hnone hm hrange h
            · split at h
              · rename_i a b hleft hright
                obtain ⟨raw, hraw, h⟩ := Lib.bind_eq_ok.mp h
                obtain ⟨result, hresult, h⟩ := Lib.bind_eq_ok.mp h
                cases h
                exact .modularExact hsemantics hnone hleft hright hraw hresult
              · cases h
                exact .modularUnknown hsemantics hnone

/-! ## Soundness -/

/-- What the transfer returns is right for every pair of integers the operands stand for. -/
def TransferSound (op : MirBinaryOp) (semantics : KirArithmeticSemantics)
    (left right : ScalarValue) : Prop :=
  ∀ v, scalarBinary op semantics left right = .ok v →
    ∀ env x y, left.Concretizes env x → right.Concretizes env y →
      (∀ z, concreteBinary op semantics left.typeNode x y = some z → v.Concretizes env z) ∧
      (v.failure = .none → ∃ z, concreteBinary op semantics left.typeNode x y = some z) ∧
      (v.failure = .always → concreteBinary op semantics left.typeNode x y = none)

/-- A checked division whose divisors surround zero, or end there. -/
def DividesAcrossZero (op : MirBinaryOp) (semantics : KirArithmeticSemantics)
    (left right : ScalarValue) : Prop :=
  op = .div ∧ semantics = .checked ∧ left.typeNode = right.typeNode ∧
    right.interval.Contains 0 ∧ right.exactValue ≠ some 0

/-- No dividend leaves the interval of the dividends when it is divided. -/
def QuotientsWithin (left right : ScalarValue) : Prop :=
  ∀ env x y, left.Concretizes env x → right.Concretizes env y →
    ¬ DivisionFails .div left.typeNode x y → left.interval.Contains (x.tdiv y)

theorem exists_exactBinary (h : ¬ DivisionFails op t x y) : ∃ z, exactBinary op x y = some z := by
  cases op with
  | add | sub | mul => exact ⟨_, Eq.refl _⟩
  | div | mod =>
      have hne : y ≠ 0 := fun hzero ↦ h ⟨by simp, Or.inl hzero⟩
      exact ⟨_, if_neg hne⟩

theorem exactBinary_of_exactScalarBinary (h : exactScalarBinary op x y = .ok z) :
    exactBinary op x y = some z := by
  cases op with
  | add | sub | mul =>
      cases h
      exact Eq.refl _
  | div | mod =>
      simp only [exactScalarBinary] at h
      split at h
      · cases h
      · rename_i hne
        cases h
        exact if_neg hne

theorem concreteBinary_eq_some (h : concreteBinary op semantics t x y = some z) :
    ¬ DivisionFails op t x y ∧ ∃ w, exactBinary op x y = some w ∧
      (semantics = .checked → z = w ∧ t.Contains w) ∧ (semantics = .modular → z = t.wrap w) := by
  unfold concreteBinary at h
  split at h
  · cases h
  · rename_i hfails
    obtain ⟨w, hw, h⟩ := Option.bind_eq_some_iff.mp h
    refine ⟨hfails, w, hw, ?_⟩
    cases semantics with
    | modular =>
        cases h
        exact ⟨fun hcase ↦ (by cases hcase), fun _ ↦ Eq.refl _⟩
    | strictFloat => cases h
    | checked =>
        dsimp only at h
        split at h
        · cases h
          exact ⟨fun _ ↦ ⟨Eq.refl _, ‹_›⟩, fun hcase ↦ by cases hcase⟩
        · cases h

theorem concreteBinary_of_fails (h : DivisionFails op t x y) :
    concreteBinary op semantics t x y = none := if_pos h

theorem concreteBinary_checked (h : ¬ DivisionFails op t x y) (hz : exactBinary op x y = some z) :
    concreteBinary op .checked t x y = if t.Contains z then some z else none := by
  rw [concreteBinary, if_neg h, hz, Option.bind_some]

theorem concreteBinary_modular (h : ¬ DivisionFails op t x y) (hz : exactBinary op x y = some z) :
    concreteBinary op .modular t x y = some (t.wrap z) := by
  rw [concreteBinary, if_neg h, hz, Option.bind_some]

/-- Modular results are in the type, whatever the operands. -/
theorem unknownValue_of_modular (failure : ScalarFailure)
    (h : concreteBinary op .modular t x y = some z) :
    ((ScalarValue.unknownValue t).withFailure failure).Concretizes env z := by
  obtain ⟨_, w, _, _, hmodular⟩ := concreteBinary_eq_some h
  rw [hmodular (Eq.refl _)]
  have hplain : (ScalarValue.unknownValue t).Concretizes env (t.wrap w) :=
    ScalarValue.concretizes_unknownValue (t.wrap_contains w)
  exact ⟨hplain.interval, hplain.congruence, hplain.knownBits, hplain.affine⟩

/-- Across zero the interval of the dividends stands for the quotients. -/
theorem mathematicalInterval_across (hr : r.Contains 0) :
    mathematicalInterval .div l r = .ok l := by
  rw [mathematicalInterval, if_pos (show r.lower ≤ 0 ∧ 0 ≤ r.upper from hr)]
  simp only [min_eq_left l.valid, max_eq_right l.valid]

theorem intersection_forType (v : ScalarValue) :
    v.interval.intersection (.forType v.typeNode) = some v.interval := by
  have hlow : max v.interval.lower (ScalarInterval.forType v.typeNode).lower = v.interval.lower :=
    max_eq_left v.inType.1.1
  have hhigh : min v.interval.upper (ScalarInterval.forType v.typeNode).upper = v.interval.upper :=
    min_eq_left v.inType.2.2
  unfold ScalarInterval.intersection
  simp only [hlow, hhigh, dif_pos v.interval.valid]

/-- A checked division across zero is given the interval of the dividends. -/
theorem scalarBinary_across (h : DividesAcrossZero op semantics left right) :
    ∃ v, scalarBinary op semantics left right = .ok v ∧ v.interval = left.interval := by
  obtain ⟨rfl, rfl, htype, hzero, hexact⟩ := h
  have hdivision : divisionFailure .div left.typeNode left right = .may := by
    have hminus : right.exactValue ≠ some (-1) := by
      intro hminus
      unfold ScalarValue.exactValue at hminus
      split at hminus
      · rename_i hsingle
        have hlower := ScalarInterval.eq_of_isExact hsingle hzero
        rw [← hlower] at hminus
        cases hminus
      · cases hminus
    unfold divisionFailure
    rw [if_neg (by decide)]
    dsimp only
    rw [if_neg, if_pos]
    · exact Or.inl hzero
    · rintro (h | h)
      · exact hexact h
      · exact hminus h.2
  obtain ⟨result, hresult⟩ : ∃ result,
      fromTransferParts .div left right left.interval false = .ok result := by
    unfold fromTransferParts ScalarValue.fromInterval
    rw [dif_pos left.inType.1, dif_pos left.inType.2]
    exact ⟨_, Eq.refl _⟩
  obtain ⟨_, hinterval, _⟩ := fromTransferParts_eq_ok hresult
  unfold scalarBinary
  rw [if_neg (not_not.mpr htype), if_neg (by decide)]
  simp only [hdivision, mathematicalInterval_across hzero, intersection_forType,
    Option.getD_some, hresult, bind, Except.bind, pure, Except.pure]
  refine ⟨_, Eq.refl _, ?_⟩
  split <;> exact hinterval

/-- The transfer of every operator is sound on all pairs of abstract operands, but for a checked
division across zero: that is sound exactly when the quotients stay among the dividends. -/
theorem transferSound_iff (op : MirBinaryOp) (semantics : KirArithmeticSemantics)
    (left right : ScalarValue) :
    TransferSound op semantics left right ↔
      (DividesAcrossZero op semantics left right → QuotientsWithin left right) := by
  constructor
  · intro hsound hacross env x y hx hy hfails
    obtain ⟨v, hv, hinterval⟩ := scalarBinary_across hacross
    obtain ⟨rfl, rfl, htype, _, _⟩ := hacross
    obtain ⟨hresult, _, _⟩ := hsound v hv env x y hx hy
    have hquotient : left.typeNode.Contains (x.tdiv y) := hx.inType.tdiv (htype ▸ hy.inType)
      fun h ↦ hfails ⟨Or.inl (Eq.refl _), Or.inr h⟩
    have hne : y ≠ 0 := fun hzero ↦ hfails ⟨Or.inl (Eq.refl _), Or.inl hzero⟩
    have hconcrete := concreteBinary_checked hfails (if_neg hne)
    rw [if_pos hquotient] at hconcrete
    rw [← hinterval]
    exact (hresult _ hconcrete).interval
  · intro hwithin v hv env x y hx hy
    obtain ⟨htype, hcase⟩ := scalarBinary_transferred hv
    -- the mathematical result is in the mathematical interval
    have hmem : ∀ {m z}, divisionFailure op left.typeNode left right ≠ .always →
        (semantics = .checked ∨ divisionFailure op left.typeNode left right = .none) →
        mathematicalInterval op left.interval right.interval = .ok m →
        ¬ DivisionFails op left.typeNode x y → exactBinary op x y = some z → m.Contains z := by
      intro m z halways hsemantics hm hfails hz
      by_cases hacross : op = .div ∧ right.interval.Contains 0
      · obtain ⟨rfl, hzero⟩ := hacross
        have hchecked : semantics = .checked := hsemantics.resolve_right fun hnone ↦
          not_contains_zero hnone (Or.inl (Eq.refl _)) hzero
        have hexact : right.exactValue ≠ some 0 := by
          intro hexact
          apply halways
          unfold divisionFailure
          rw [if_neg (by decide)]
          exact if_pos (Or.inl hexact)
        have hquotient := hwithin ⟨Eq.refl _, hchecked, htype, hzero, hexact⟩ env x y hx hy hfails
        rw [mathematicalInterval_across hzero] at hm
        simp only [exactBinary] at hz
        split at hz
        · cases hz
        · cases hm
          cases hz
          exact hquotient
      · exact mathematicalInterval_contains hm hx.interval hy.interval hz
          fun hop hzero ↦ hacross ⟨hop, hzero⟩
    cases hcase with
    | fails hdivision =>
        have hfails : DivisionFails op left.typeNode x y := by
          rw [htype] at hdivision ⊢
          exact divisionFails_of_always hdivision hx hy
        rw [concreteBinary_of_fails hfails]
        exact ⟨fun z hz ↦ (by cases hz), fun hnone ↦ (by cases hnone), fun _ ↦ Eq.refl _⟩
    | @checked m result v hsemantics hdivision hm hresult hparts hfailure =>
        subst hsemantics
        have hmem := fun {z} ↦ @hmem m z hdivision (Or.inl (Eq.refl _)) hm
        refine ⟨fun z hz ↦ ?_, fun hnone ↦ ?_, fun halways ↦ ?_⟩
        · obtain ⟨hfails, w, hw, hchecked, _⟩ := concreteBinary_eq_some hz
          obtain ⟨rfl, hin⟩ := hchecked (Eq.refl _)
          have hbound : ((m.intersection (.forType left.typeNode)).getD
              (.forType left.typeNode)).Contains z := by
            cases hmeet : m.intersection (.forType left.typeNode) with
            | none => exact hin
            | some k => exact (ScalarInterval.contains_intersection hmeet).mpr ⟨hmem hfails hw, hin⟩
          have hplain := fromTransferParts_concretizes hresult hx hy hw hbound
          obtain ⟨htype', hinterval, hcongruence, hbits, haffine⟩ := hparts
          refine ⟨hinterval ▸ hplain.interval, hcongruence ▸ hplain.congruence, ?_, ?_⟩
          · rw [hbits, htype']
            exact hplain.knownBits
          · intro form hform
            rcases haffine with hnone | hsame
            · rw [hnone] at hform
              cases hform
            · exact hplain.affine form (hsame ▸ hform)
        · rw [hfailure, ScalarFailure.max_eq_none] at hnone
          have hfails := not_divisionFails hnone.1 hx hy
          obtain ⟨z, hz⟩ := exists_exactBinary hfails
          have hin := contains_of_rangeFailure_none hnone.2 (hmem hfails hz)
          exact ⟨z, by rw [concreteBinary_checked hfails hz, if_pos hin]⟩
        · rw [hfailure, ScalarFailure.max_eq_always] at halways
          have hrange := halways.resolve_left hdivision
          by_cases hfails : DivisionFails op left.typeNode x y
          · exact concreteBinary_of_fails hfails
          · obtain ⟨z, hz⟩ := exists_exactBinary hfails
            rw [concreteBinary_checked hfails hz,
              if_neg (not_contains_of_rangeFailure_always hrange (hmem hfails hz))]
    | modularMay hsemantics hdivision =>
        subst hsemantics
        exact ⟨fun z hz ↦ unknownValue_of_modular .may hz, fun h ↦ (by cases h), fun h ↦ (by cases h)⟩
    | @modularWithin m v hsemantics hdivision hm hrange hparts =>
        subst hsemantics
        have hfails := not_divisionFails hdivision hx hy
        obtain ⟨w, hw⟩ := exists_exactBinary hfails
        have hbound := hmem (by rw [hdivision]; decide) (Or.inr hdivision) hm hfails hw
        have hconcrete := concreteBinary_modular hfails hw
        rw [IntegerType.wrap_of_contains (contains_of_rangeFailure_none hrange hbound)] at hconcrete
        obtain ⟨_, _, hfailure⟩ := fromTransferParts_eq_ok hparts
        rw [hconcrete, hfailure]
        refine ⟨fun z hz ↦ ?_, fun _ ↦ ⟨w, Eq.refl _⟩, fun h ↦ (by cases h)⟩
        cases hz
        exact fromTransferParts_concretizes hparts hx hy hw hbound
    | @modularExact a b raw result hsemantics hdivision hleft hright hraw hresult =>
        subst hsemantics
        obtain rfl := hx.eq_of_exactValue hleft
        obtain rfl := hy.eq_of_exactValue hright
        have hfails := not_divisionFails hdivision hx hy
        have hplain : result.Concretizes env (left.typeNode.wrap raw) :=
          ScalarValue.constant_concretizes hresult
        rw [concreteBinary_modular hfails (exactBinary_of_exactScalarBinary hraw)]
        refine ⟨fun z hz ↦ ?_, fun _ ↦ ⟨_, Eq.refl _⟩, fun h ↦ ?_⟩
        · cases hz
          exact ⟨hplain.interval, hplain.congruence, hplain.knownBits, fun form hform ↦ by cases hform⟩
        · rw [ScalarValue.constant_failure hresult] at h
          cases h
    | modularUnknown hsemantics hdivision =>
        subst hsemantics
        have hfails := not_divisionFails hdivision hx hy
        obtain ⟨w, hw⟩ := exists_exactBinary hfails
        rw [concreteBinary_modular hfails hw]
        refine ⟨fun z hz ↦ ?_, fun _ ↦ ⟨_, Eq.refl _⟩, fun h ↦ (by cases h)⟩
        cases hz
        exact ScalarValue.concretizes_unknownValue (left.typeNode.wrap_contains w)

/-- For plain intervals: with a divisor from two on the dividends surround zero, and with a
negative one they are symmetric, all of the type, or the least integer over minus one only. -/
theorem quotientsWithin_ofInterval {i j : ScalarInterval}
    (hi : t.Contains i.lower ∧ t.Contains i.upper) (hj : t.Contains j.lower ∧ t.Contains j.upper)
    (hzero : j.Contains 0) :
    QuotientsWithin (ScalarValue.ofInterval t i hi) (ScalarValue.ofInterval t j hj) ↔
      (2 ≤ j.upper → i.Contains 0) ∧
        (j.lower ≤ -1 → i.lower + i.upper = 0 ∨ i = .forType t ∨
          i.lower = t.minimum ∧ i.upper = t.minimum ∧ j.lower = -1) := by
  have hplain : QuotientsWithin (ScalarValue.ofInterval t i hi) (ScalarValue.ofInterval t j hj) ↔
      ∀ x y, i.Contains x → j.Contains y → ¬ DivisionFails .div t x y → i.Contains (x.tdiv y) := by
    simp only [QuotientsWithin, ScalarValue.ofInterval_concretizes_iff]
    exact ⟨fun h x y ↦ h (fun _ ↦ 0) x y, fun h _ ↦ h⟩
  have hfails : ∀ x y, DivisionFails .div t x y ↔
      y = 0 ∨ t.isSigned = true ∧ x = t.minimum ∧ y = -1 := by
    simp [DivisionFails]
  rw [hplain]
  constructor
  · intro h
    refine ⟨fun htwo ↦ ?_, fun hminus ↦ ?_⟩
    · have hhalf : ∀ x, i.Contains x → i.Contains (x.tdiv 2) := fun x hx ↦
        h x 2 hx ⟨hzero.1.trans (by decide), htwo⟩ (by rw [hfails]; omega)
      have hlower := hhalf i.lower ⟨le_refl _, i.valid⟩
      have hupper := hhalf i.upper ⟨i.valid, le_refl _⟩
      have hshrink : ∀ x : Int, x ≠ 0 → (x.tdiv 2).natAbs < x.natAbs := fun x hx ↦
        Lib.natAbs_tdiv_lt hx (by decide)
      refine ⟨not_lt.mp fun hpos ↦ ?_, not_lt.mp fun hneg ↦ ?_⟩
      · have := hshrink i.lower (by omega)
        have := hlower.1
        omega
      · have := hshrink i.upper (by omega)
        have := hupper.2
        omega
    · have hsigned : t.isSigned = true := hj.1.signed_of_neg (by omega)
      have hnegate : ∀ x, i.Contains x → x ≠ t.minimum → i.Contains (-x) := by
        intro x hx hne
        have hquotient := h x (-1) hx ⟨hminus, (by decide : (-1 : Int) ≤ 0).trans hzero.2⟩
          (by rw [hfails]; tauto)
        rwa [Int.tdiv_neg, Int.tdiv_one] at hquotient
      by_cases hlower : i.lower = t.minimum
      · by_cases hupper : i.upper = t.minimum
        · refine Or.inr (Or.inr ⟨hlower, hupper, ?_⟩)
          by_contra hlow
          -- the least integer by minus two is positive
          have hquotient := h t.minimum (-2) ⟨hlower.le, hupper.ge⟩
            ⟨by omega, (by decide : (-2 : Int) ≤ 0).trans hzero.2⟩ (by rw [hfails]; omega)
          have hvalue : t.minimum < t.minimum.tdiv (-2) := by
            cases t with
            | i32 | i64 => decide
            | u32 | u64 => cases hsigned
          exact absurd (hquotient.2.trans hupper.le) (not_le.mpr hvalue)
        · refine Or.inr (Or.inl ?_)
          have hnext := hnegate (i.lower + 1) ⟨by omega, by have := i.valid; omega⟩ (by omega)
          have hmaximum : -(t.minimum + 1) = t.maximum := by
            cases t with
            | i32 | i64 => decide
            | u32 | u64 => cases hsigned
          have hupper' : i.upper = t.maximum := by
            have := hnext.2
            have := hi.2.2
            omega
          cases i
          dsimp only at hlower hupper'
          subst hlower hupper'
          exact Eq.refl _
      · have h₁ := hnegate i.lower ⟨le_refl _, i.valid⟩ hlower
        have h₂ := hnegate i.upper ⟨i.valid, le_refl _⟩ (by
          have := i.valid
          have := hi.1.1
          omega)
        have := h₁.2
        have := h₂.1
        omega
  · rintro ⟨htwo, hminus⟩ x y hx hy hnot
    rw [hfails, not_or] at hnot
    have hle := Int.natAbs_tdiv_le_natAbs x y
    rcases lt_trichotomy y 0 with hneg | hzero' | hpos
    · have hlow := hy.1
      rcases hminus (by omega) with hsymmetric | rfl | ⟨hlower, hupper, hminusOne⟩
      · have := hx.1
        have := hx.2
        exact ⟨by omega, by omega⟩
      · exact IntegerType.Contains.tdiv hx ⟨hj.1.1.trans hy.1, hy.2.trans hj.2.2⟩ hnot.2
      · have hsigned : t.isSigned = true := hj.1.signed_of_neg (by omega)
        have := hx.1
        have := hx.2
        exact absurd ⟨hsigned, by omega, by omega⟩ hnot.2
    · exact absurd hzero' hnot.1
    · by_cases hone : y = 1
      · rw [hone, Int.tdiv_one]
        exact hx
      · have hbounds := htwo (by have := hy.2; omega)
        have hnonneg : 0 ≤ x → 0 ≤ x.tdiv y := fun h ↦ Int.tdiv_nonneg h hpos.le
        have hnonpos : x ≤ 0 → x.tdiv y ≤ 0 := by
          intro h
          have hnegated := Int.tdiv_nonneg (neg_nonneg.mpr h) hpos.le
          rw [Int.neg_tdiv] at hnegated
          exact neg_nonneg.mp hnegated
        have := hx.1
        have := hx.2
        have := hbounds.1
        have := hbounds.2
        exact ⟨by omega, by omega⟩

/-- Ten is between five and ten; its quotient by minus one is not. -/
theorem not_transferSound_div : ¬ TransferSound .div .checked
    (ScalarValue.ofInterval .i32 ⟨5, 10, by decide⟩ (by decide))
    (ScalarValue.ofInterval .i32 ⟨-1, 1, by decide⟩ (by decide)) := by
  intro hsound
  have hacross : DividesAcrossZero .div .checked
      (ScalarValue.ofInterval .i32 ⟨5, 10, by decide⟩ (by decide))
      (ScalarValue.ofInterval .i32 ⟨-1, 1, by decide⟩ (by decide)) :=
    ⟨Eq.refl _, Eq.refl _, Eq.refl _, by decide, by decide⟩
  obtain ⟨v, hv, hinterval⟩ := scalarBinary_across hacross
  have hresult := (hsound v hv (fun _ ↦ 0) 10 (-1)
    (ScalarValue.ofInterval_concretizes_iff.mpr (by decide))
    (ScalarValue.ofInterval_concretizes_iff.mpr (by decide))).1 (-10) (by decide)
  exact absurd (hinterval ▸ hresult.interval) (by decide)

end CalcKernel
