import CalcKernel.Optimizer.Facts
import CalcKernel.Lib.Corners

/-!
# The scalar domain

An abstract integer is a closed interval with a congruence, known bits and an affine
form over SSA values.  `scalar_binary` computes on it what a binary operation gives and
whether the operation can fail.
-/

namespace CalcKernel

abbrev ScalarDomainError := String

def IntegerType.debug : IntegerType → String
  | .i32 => "I32"
  | .i64 => "I64"
  | .u32 => "U32"
  | .u64 => "U64"

theorem IntegerType.minimum_le_maximum (t : IntegerType) : t.minimum ≤ t.maximum := by
  cases t <;> decide

theorem IntegerType.modulus_pos (t : IntegerType) : 0 < t.modulus := by
  cases t <;> decide

/-- The remainder of `value` that is not negative. -/
def mathematicalMod (value modulus : Int) : Int :=
  let remainder := value.tmod modulus
  if remainder < 0 then remainder + modulus else remainder

theorem mathematicalMod_eq {modulus : Int} (hpos : 0 < modulus) (value : Int) :
    mathematicalMod value modulus = value % modulus := by
  have hmod : value.tmod modulus % modulus = value % modulus := by
    rw [Int.tmod_def, Int.sub_mul_emod_self_left]
  have hlow := Int.lt_tmod_of_pos value hpos
  have hhigh := Int.tmod_lt_of_pos value hpos
  rw [← hmod]
  unfold mathematicalMod
  dsimp only
  split
  · rw [← Int.add_emod_right, Int.emod_eq_of_lt (by omega) (by omega)]
  · rw [Int.emod_eq_of_lt (by omega) hhigh]

/-! ## Intervals -/

namespace ScalarInterval

def new (lower upper : Int) : Except ScalarDomainError ScalarInterval :=
  if h : lower ≤ upper then .ok ⟨lower, upper, h⟩
  else .error "interval lower bound exceeds upper bound"

def exact (value : Int) : ScalarInterval := ⟨value, value, le_refl value⟩

def forType (t : IntegerType) : ScalarInterval := ⟨t.minimum, t.maximum, t.minimum_le_maximum⟩

def intersection (self other : ScalarInterval) : Option ScalarInterval :=
  if h : max self.lower other.lower ≤ min self.upper other.upper then
    some ⟨max self.lower other.lower, min self.upper other.upper, h⟩
  else none

def isExact (self : ScalarInterval) : Bool := self.lower = self.upper

variable {i j k : ScalarInterval} {x : Int}

theorem new_eq_ok {lower upper : Int} :
    new lower upper = .ok i ↔ i.lower = lower ∧ i.upper = upper := by
  unfold new
  split
  · constructor
    · intro h
      cases h
      exact ⟨Eq.refl _, Eq.refl _⟩
    · rintro ⟨rfl, rfl⟩
      exact Eq.refl _
  · constructor
    · intro h
      cases h
    · rintro ⟨rfl, rfl⟩
      exact absurd i.valid ‹_›

@[simp] theorem contains_exact {value : Int} : (exact value).Contains x ↔ x = value := by
  simp only [Contains, exact]
  omega

@[simp] theorem contains_forType {t : IntegerType} : (forType t).Contains x ↔ t.Contains x :=
  Iff.rfl

theorem contains_intersection (h : i.intersection j = some k) :
    k.Contains x ↔ i.Contains x ∧ j.Contains x := by
  unfold intersection at h
  split at h
  · cases h
    simp only [Contains, max_le_iff, le_min_iff]
    tauto
  · cases h

theorem not_contains_of_intersection_eq_none (h : i.intersection j = none) (hi : i.Contains x) :
    ¬ j.Contains x := by
  unfold intersection at h
  split at h
  · cases h
  · rename_i hlt
    intro hj
    exact hlt ((max_le hi.1 hj.1).trans (le_min hi.2 hj.2))

theorem eq_of_isExact (h : i.isExact = true) (hx : i.Contains x) : x = i.lower := by
  have heq : i.lower = i.upper := by simpa [isExact] using h
  exact le_antisymm (heq ▸ hx.2) hx.1

end ScalarInterval

/-! ## Congruences -/

/-- `value ≡ remainder` modulo `modulus`; modulus zero denotes an exact value. -/
structure ScalarCongruence where
  modulus : Int
  remainder : Int
  nonneg : 0 ≤ modulus
deriving DecidableEq, Repr

/-- Euclid's loop on numbers that are not negative. -/
def gcdLoop (left right : Int) : Int :=
  if _h : right = 0 then left else gcdLoop right (left.tmod right)
termination_by right.natAbs
decreasing_by
  rw [Int.natAbs_tmod]
  exact Nat.mod_lt _ (Int.natAbs_pos.mpr _h)

def gcdNonnegative (left right : Int) : Int :=
  gcdLoop (if left < 0 then -left else left) (if right < 0 then -right else right)

theorem gcdLoop_eq {left right : Int} (hl : 0 ≤ left) (hr : 0 ≤ right) :
    gcdLoop left right = Int.gcd left right := by
  induction left, right using gcdLoop.induct with
  | case1 left =>
      rw [gcdLoop, dif_pos (Eq.refl _), Int.gcd_zero_right]
      exact (Int.natAbs_of_nonneg hl).symm
  | case2 left right h ih =>
      rw [gcdLoop, dif_neg h, ih hr (Int.tmod_nonneg right hl), Int.gcd_comm,
        Int.tmod_eq_emod_of_nonneg hl, Int.gcd_emod, Int.gcd_comm]

theorem gcdNonnegative_eq (left right : Int) : gcdNonnegative left right = Int.gcd left right := by
  have habs : ∀ a : Int, (if a < 0 then -a else a) = |a| := by
    intro a
    split
    · exact (abs_of_neg ‹_›).symm
    · exact (abs_of_nonneg (by omega)).symm
  rw [gcdNonnegative, habs, habs, gcdLoop_eq (abs_nonneg _) (abs_nonneg _), Int.gcd_def,
    Int.natAbs_abs, Int.natAbs_abs, ← Int.gcd_def]

theorem gcdNonnegative_nonneg (left right : Int) : 0 ≤ gcdNonnegative left right := by
  rw [gcdNonnegative_eq]
  exact Int.natCast_nonneg _

namespace ScalarCongruence

def exact (value : Int) : ScalarCongruence := ⟨0, value, le_refl 0⟩

def top : ScalarCongruence := ⟨1, 0, Int.one_nonneg⟩

def Contains (self : ScalarCongruence) (value : Int) : Prop :=
  if self.modulus = 0 then value = self.remainder
  else mathematicalMod (value - self.remainder) self.modulus = 0

instance (c : ScalarCongruence) (x : Int) : Decidable (c.Contains x) :=
  inferInstanceAs (Decidable
    (if c.modulus = 0 then x = c.remainder else mathematicalMod (x - c.remainder) c.modulus = 0))

def combine (left right : ScalarCongruence) (subtract : Bool) : ScalarCongruence :=
  let remainder :=
    if subtract then left.remainder - right.remainder else left.remainder + right.remainder
  if left.modulus = 0 ∧ right.modulus = 0 then exact remainder
  else
    let modulus := gcdNonnegative left.modulus right.modulus
    if modulus = 0 then exact remainder
    else ⟨modulus, mathematicalMod remainder modulus, gcdNonnegative_nonneg _ _⟩

def add (self other : ScalarCongruence) : ScalarCongruence := combine self other false

def sub (self other : ScalarCongruence) : ScalarCongruence := combine self other true

def multiply (self other : ScalarCongruence) : ScalarCongruence :=
  if self.modulus = 0 ∧ other.modulus = 0 then exact (self.remainder * other.remainder) else top

variable {c d : ScalarCongruence} {x y : Int}

/-- With modulus zero divisibility is equality. -/
theorem contains_iff : c.Contains x ↔ c.modulus ∣ x - c.remainder := by
  unfold Contains
  split
  · rename_i h
    rw [h, zero_dvd_iff, sub_eq_zero]
  · rename_i h
    rw [mathematicalMod_eq (lt_of_le_of_ne c.nonneg (Ne.symm h)), Int.dvd_iff_emod_eq_zero]

@[simp] theorem contains_exact {value : Int} : (exact value).Contains x ↔ x = value := by
  simp [Contains, exact]

@[simp] theorem contains_top : top.Contains x := by
  simp [contains_iff, top]

theorem contains_combine (subtract : Bool) (hx : c.Contains x) (hy : d.Contains y) :
    (combine c d subtract).Contains (if subtract then x - y else x + y) := by
  rw [contains_iff] at hx hy
  have hdvd : (Int.gcd c.modulus d.modulus : Int) ∣ (if subtract then x - y else x + y) -
      (if subtract then c.remainder - d.remainder else c.remainder + d.remainder) := by
    have hx := (Int.gcd_dvd_left c.modulus d.modulus).trans hx
    have hy := (Int.gcd_dvd_right c.modulus d.modulus).trans hy
    cases subtract with
    | false =>
        have h := Int.dvd_add hx hy
        rwa [show x - c.remainder + (y - d.remainder) =
          x + y - (c.remainder + d.remainder) by ring] at h
    | true =>
        have h := Int.dvd_sub hx hy
        rwa [show x - c.remainder - (y - d.remainder) =
          x - y - (c.remainder - d.remainder) by ring] at h
  rw [contains_iff]
  unfold combine
  dsimp only
  split
  · rename_i h
    rw [h.1, h.2] at hdvd
    simpa [exact] using hdvd
  · split
    · rename_i h
      rw [gcdNonnegative_eq] at h
      rw [h] at hdvd
      simpa [exact] using hdvd
    · rename_i h
      dsimp only
      rw [gcdNonnegative_eq] at h ⊢
      have hpos : (0 : Int) < Int.gcd c.modulus d.modulus := by omega
      rw [mathematicalMod_eq hpos]
      rw [Int.dvd_iff_emod_eq_zero, Int.sub_emod_emod]
      exact Int.emod_eq_zero_of_dvd hdvd

end ScalarCongruence

/-! ## Known bits -/

/-- Masks of the bits known to be zero and known to be one. -/
structure ScalarKnownBits where
  knownZero : BitVec 64
  knownOne : BitVec 64
deriving DecidableEq, Repr

def IntegerType.bitMask (t : IntegerType) : BitVec 64 :=
  if t.bits = 64 then BitVec.allOnes 64 else (1#64 <<< t.bits) - 1

namespace ScalarKnownBits

protected def unknown : ScalarKnownBits := ⟨0, 0⟩

def exact (value : Int) (t : IntegerType) : ScalarKnownBits :=
  let raw := BitVec.ofInt 64 (mathematicalMod value t.modulus)
  ⟨~~~raw &&& t.bitMask, raw &&& t.bitMask⟩

def Matches (self : ScalarKnownBits) (value : Int) (t : IntegerType) : Prop :=
  if value = 0 then self.knownOne = 0
  else
    (exact value t).knownOne &&& self.knownZero = 0 ∧
      (exact value t).knownOne &&& self.knownOne = self.knownOne

variable {value : Int} {t : IntegerType}

@[simp] theorem matches_unknown : ScalarKnownBits.unknown.Matches value t := by
  unfold Matches ScalarKnownBits.unknown
  split
  · exact Eq.refl _
  · exact ⟨BitVec.and_zero, BitVec.and_zero⟩

@[simp] theorem matches_exact : (exact value t).Matches value t := by
  unfold Matches
  split
  · rename_i h
    subst h
    simp [exact, mathematicalMod]
  · refine ⟨?_, BitVec.and_self⟩
    simp only [exact]
    ext i hi
    simp only [BitVec.getElem_and, BitVec.getElem_not]
    cases (BitVec.ofInt 64 (mathematicalMod value t.modulus))[i] <;> simp

end ScalarKnownBits

/-! ## Affine forms -/

/-- A sum of integer multiples of SSA values, in ascending order of the values, and a constant. -/
structure AffineForm where
  terms : List (ValueId × Int)
  constant : Int
deriving DecidableEq, Repr

namespace AffineForm

def integer (value : Int) : AffineForm := ⟨[], value⟩

/-- Add to the coefficient of a value, zero when it has none. -/
def addTerm (value : ValueId) (coefficient : Int) : List (ValueId × Int) → List (ValueId × Int)
  | [] => [(value, coefficient)]
  | (v, c) :: rest =>
      if value < v then (value, coefficient) :: (v, c) :: rest
      else if value = v then (v, c + coefficient) :: rest
      else (v, c) :: addTerm value coefficient rest

def add (self other : AffineForm) : AffineForm :=
  ⟨(other.terms.foldl (fun terms t ↦ addTerm t.1 t.2 terms) self.terms).filter (·.2 ≠ 0),
    self.constant + other.constant⟩

def scale (self : AffineForm) (coefficient : Int) : AffineForm :=
  ⟨(self.terms.map fun t ↦ (t.1, t.2 * coefficient)).filter (·.2 ≠ 0),
    self.constant * coefficient⟩

def sub (self other : AffineForm) : AffineForm := self.add (other.scale (-1))

/-- The value of the terms when the SSA values are known. -/
def evalTerms (env : ValueId → Int) (terms : List (ValueId × Int)) : Int :=
  (terms.map fun t ↦ t.2 * env t.1).sum

def eval (env : ValueId → Int) (self : AffineForm) : Int := evalTerms env self.terms + self.constant

variable {env : ValueId → Int} {f g : AffineForm}

theorem evalTerms_cons (t : ValueId × Int) (terms : List (ValueId × Int)) :
    evalTerms env (t :: terms) = t.2 * env t.1 + evalTerms env terms := by
  simp [evalTerms]

theorem evalTerms_addTerm (value : ValueId) (coefficient : Int) (terms : List (ValueId × Int)) :
    evalTerms env (addTerm value coefficient terms) =
      evalTerms env terms + coefficient * env value := by
  induction terms with
  | nil => simp [addTerm, evalTerms]
  | cons t rest ih =>
      rw [addTerm]
      split
      · rw [evalTerms_cons]
        ring
      · split
        · rename_i heq
          rw [evalTerms_cons, evalTerms_cons, heq]
          ring
        · rw [evalTerms_cons, evalTerms_cons, ih]
          ring

theorem evalTerms_filter (terms : List (ValueId × Int)) :
    evalTerms env (terms.filter (·.2 ≠ 0)) = evalTerms env terms := by
  induction terms with
  | nil => exact Eq.refl _
  | cons t rest ih =>
      rw [List.filter_cons, evalTerms_cons, ← ih]
      split
      · rw [evalTerms_cons]
      · rename_i h
        have hzero : t.2 = 0 := by simpa using h
        rw [hzero, zero_mul, zero_add]

theorem eval_integer (value : Int) : (integer value).eval env = value := by
  simp [eval, integer, evalTerms]

theorem eval_add : (f.add g).eval env = f.eval env + g.eval env := by
  have hfold : ∀ terms start : List (ValueId × Int),
      evalTerms env (terms.foldl (fun acc t ↦ addTerm t.1 t.2 acc) start) =
        evalTerms env start + evalTerms env terms := by
    intro terms
    induction terms with
    | nil => intro start; simp [evalTerms]
    | cons t rest ih =>
        intro start
        rw [List.foldl_cons, ih, evalTerms_addTerm, evalTerms_cons]
        ring
  simp only [eval, add]
  rw [evalTerms_filter, hfold]
  ring

theorem eval_scale (coefficient : Int) :
    (f.scale coefficient).eval env = f.eval env * coefficient := by
  have hmap : ∀ terms : List (ValueId × Int),
      evalTerms env (terms.map fun t ↦ (t.1, t.2 * coefficient)) =
        evalTerms env terms * coefficient := by
    intro terms
    induction terms with
    | nil => simp [evalTerms]
    | cons t rest ih =>
        rw [List.map_cons, evalTerms_cons, evalTerms_cons, ih]
        ring
  simp only [eval, scale]
  rw [evalTerms_filter, hmap]
  ring

theorem eval_sub : (f.sub g).eval env = f.eval env - g.eval env := by
  rw [sub, eval_add, eval_scale]
  ring

end AffineForm

/-! ## Values -/

/-- Whether evaluating an operation can trigger its failure. -/
inductive ScalarFailure where
  | none | may | always
deriving DecidableEq, Repr

namespace ScalarFailure

/-- The greater of two in the order `None < May < Always`. -/
protected def max : ScalarFailure → ScalarFailure → ScalarFailure
  | .none, b => b
  | .may, .always => .always
  | .may, _ => .may
  | .always, _ => .always

variable {a b : ScalarFailure}

theorem max_eq_none : a.max b = .none ↔ a = .none ∧ b = .none := by
  cases a <;> cases b <;> decide

theorem max_eq_always : a.max b = .always ↔ a = .always ∨ b = .always := by
  cases a <;> cases b <;> decide

end ScalarFailure

/-- The bounds of a value always fit its type. -/
structure ScalarValue where
  typeNode : IntegerType
  interval : ScalarInterval
  congruence : ScalarCongruence
  knownBits : ScalarKnownBits
  affine : Option AffineForm
  failure : ScalarFailure
  unknown : Bool
  inType : typeNode.Contains interval.lower ∧ typeNode.Contains interval.upper

theorem IntegerType.contains_bounds (t : IntegerType) :
    t.Contains t.minimum ∧ t.Contains t.maximum :=
  ⟨⟨le_refl _, t.minimum_le_maximum⟩, ⟨t.minimum_le_maximum, le_refl _⟩⟩

/-- The message of `ensure_in_type`. -/
def doesNotFit (t : IntegerType) (value : Int) : ScalarDomainError :=
  "integer " ++ toString value ++ " does not fit " ++ t.debug

namespace ScalarValue

/-- Nothing is known but the type. -/
def unknownValue (t : IntegerType) : ScalarValue where
  typeNode := t
  interval := .forType t
  congruence := .top
  knownBits := .unknown
  affine := none
  failure := .none
  unknown := true
  inType := t.contains_bounds

def constant (t : IntegerType) (value : Int) : Except ScalarDomainError ScalarValue :=
  if h : t.Contains value then
    .ok
      { typeNode := t
        interval := .exact value
        congruence := .exact value
        knownBits := .exact value t
        affine := some (.integer value)
        failure := .none
        unknown := false
        inType := ⟨h, h⟩ }
  else .error (doesNotFit t value)

/-- Nothing is known but an interval inside the type. -/
def ofInterval (t : IntegerType) (interval : ScalarInterval)
    (h : t.Contains interval.lower ∧ t.Contains interval.upper) : ScalarValue where
  typeNode := t
  interval := interval
  congruence := if interval.isExact then .exact interval.lower else .top
  knownBits := if interval.isExact then .exact interval.lower t else .unknown
  affine := if interval.isExact then some (.integer interval.lower) else none
  failure := .none
  unknown := interval = .forType t
  inType := h

def fromInterval (t : IntegerType) (interval : ScalarInterval) :
    Except ScalarDomainError ScalarValue :=
  if hlower : t.Contains interval.lower then
    if hupper : t.Contains interval.upper then .ok (ofInterval t interval ⟨hlower, hupper⟩)
    else .error (doesNotFit t interval.upper)
  else .error (doesNotFit t interval.lower)

def exactValue (self : ScalarValue) : Option Int :=
  if self.interval.isExact then some self.interval.lower else none

def withFailure (self : ScalarValue) (failure : ScalarFailure) : ScalarValue :=
  { self with failure := failure }

/-- The integer, among the SSA values of the environment, is one of those the value stands for. -/
structure Concretizes (v : ScalarValue) (env : ValueId → Int) (x : Int) : Prop where
  interval : v.interval.Contains x
  congruence : v.congruence.Contains x
  knownBits : v.knownBits.Matches x v.typeNode
  affine : ∀ form, v.affine = some form → x = form.eval env

theorem Concretizes.inType {v : ScalarValue} {env : ValueId → Int} {x : Int}
    (h : v.Concretizes env x) : v.typeNode.Contains x :=
  ⟨v.inType.1.1.trans h.interval.1, h.interval.2.trans v.inType.2.2⟩

theorem Concretizes.eq_of_exactValue {v : ScalarValue} {env : ValueId → Int} {x c : Int}
    (h : v.Concretizes env x) (hexact : v.exactValue = some c) : x = c := by
  unfold exactValue at hexact
  split at hexact
  · cases hexact
    exact ScalarInterval.eq_of_isExact ‹_› h.interval
  · cases hexact

theorem concretizes_unknownValue {t : IntegerType} {env : ValueId → Int} {x : Int} (h : t.Contains x) :
    (unknownValue t).Concretizes env x where
  interval := h
  congruence := ScalarCongruence.contains_top
  knownBits := ScalarKnownBits.matches_unknown
  affine _ hform := by cases hform

end ScalarValue

/-! ## Transfer -/

/-- The least and the greatest of a list, zero when it is empty. -/
def ScalarInterval.hullOf (values : List Int) : Except ScalarDomainError ScalarInterval :=
  ScalarInterval.new (values.min?.getD 0) (values.max?.getD 0)

/-- `exact_binary`: the mathematical result, an error for division by zero. -/
def exactScalarBinary (op : MirBinaryOp) (left right : Int) : Except ScalarDomainError Int :=
  match op with
  | .add => .ok (left + right)
  | .sub => .ok (left - right)
  | .mul => .ok (left * right)
  | .div => if right = 0 then .error "integer division by zero" else .ok (left.tdiv right)
  | .mod => if right = 0 then .error "integer remainder by zero" else .ok (left.tmod right)

def mathematicalInterval (op : MirBinaryOp) (left right : ScalarInterval) :
    Except ScalarDomainError ScalarInterval :=
  match op with
  | .add => ScalarInterval.new (left.lower + right.lower) (left.upper + right.upper)
  | .sub => ScalarInterval.new (left.lower - right.upper) (left.upper - right.lower)
  | .mul => ScalarInterval.hullOf
      [left.lower * right.lower, left.lower * right.upper, left.upper * right.lower,
        left.upper * right.upper]
  | .div =>
      if right.lower ≤ 0 ∧ 0 ≤ right.upper then
        .ok ⟨min left.lower left.upper, max left.lower left.upper, min_le_max⟩
      else ScalarInterval.hullOf
        [left.lower.tdiv right.lower, left.lower.tdiv right.upper, left.upper.tdiv right.lower,
          left.upper.tdiv right.upper]
  | .mod =>
      if left.isExact ∧ right.isExact then
        (exactScalarBinary .mod left.lower right.lower).map .exact
      else
        let maximum := max (max (max right.lower (-right.lower)) right.upper) (-right.upper)
        ScalarInterval.new (-maximum + 1) (maximum - 1)

def divisionFailure (op : MirBinaryOp) (t : IntegerType) (left right : ScalarValue) :
    ScalarFailure :=
  if op ≠ .div ∧ op ≠ .mod then .none
  else
    let canZero := right.interval.lower ≤ 0 ∧ 0 ≤ right.interval.upper
    let alwaysZero := right.exactValue = some 0
    let signedOverflow := t.isSigned = true ∧ left.interval.lower ≤ t.minimum ∧
      t.minimum ≤ left.interval.upper ∧ right.interval.lower ≤ -1 ∧ -1 ≤ right.interval.upper
    if alwaysZero ∨ left.exactValue = some t.minimum ∧ right.exactValue = some (-1) then .always
    else if canZero ∨ signedOverflow then .may
    else .none

def rangeFailure (t : IntegerType) (interval : ScalarInterval) : ScalarFailure :=
  if interval.upper < t.minimum ∨ t.maximum < interval.lower then .always
  else if interval.lower < t.minimum ∨ t.maximum < interval.upper then .may
  else .none

def transferAffine (op : MirBinaryOp) (left right : ScalarValue) : Option AffineForm :=
  match op with
  | .add => do return (← left.affine).add (← right.affine)
  | .sub => do return (← left.affine).sub (← right.affine)
  | .mul =>
      match left.exactValue with
      | some constant => right.affine.map (·.scale constant)
      | none => right.exactValue.bind fun constant ↦ left.affine.map (·.scale constant)
  | .div | .mod => none

def fromTransferParts (op : MirBinaryOp) (left right : ScalarValue) (interval : ScalarInterval)
    (forceUnknown : Bool) : Except ScalarDomainError ScalarValue := do
  let result ← ScalarValue.fromInterval left.typeNode interval
  return { result with
    congruence := match op with
      | .add => left.congruence.add right.congruence
      | .sub => left.congruence.sub right.congruence
      | .mul => left.congruence.multiply right.congruence
      | .div | .mod => .top
    affine := transferAffine op left right
    unknown := result.unknown || forceUnknown }

/-- A local transfer without the analyzer. -/
def scalarBinary (op : MirBinaryOp) (semantics : KirArithmeticSemantics)
    (left right : ScalarValue) : Except ScalarDomainError ScalarValue := do
  if left.typeNode ≠ right.typeNode then
    throw "binary operands have different integer types"
  if semantics = .strictFloat then
    throw "strict-float semantics cannot be applied to integer scalar values"
  let t := left.typeNode
  let division := divisionFailure op t left right
  -- a guaranteed failure has no numeric result to bound
  if division = .always then
    return (ScalarValue.unknownValue t).withFailure division
  let mathematical ← mathematicalInterval op left.interval right.interval
  if semantics = .checked then
    let failure := division.max (rangeFailure t mathematical)
    let interval := (mathematical.intersection (.forType t)).getD (.forType t)
    let result ← fromTransferParts op left right interval false
    let result := { result with failure := failure }
    return if failure = .always then { result with unknown := true, affine := none } else result
  else
    if division ≠ .none then
      return (ScalarValue.unknownValue t).withFailure division
    if rangeFailure t mathematical = .none then
      fromTransferParts op left right mathematical false
    else
      match left.exactValue, right.exactValue with
      | some x, some y => do
          let raw ← exactScalarBinary op x y
          let result ← ScalarValue.constant t (t.wrap raw)
          return { result with affine := none }
      | _, _ => return ScalarValue.unknownValue t

end CalcKernel
