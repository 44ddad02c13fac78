import Mathlib.Tactic.Linarith
import CalcKernel.Kir.Model

/-!
# Values and scalar arithmetic

Integers carry their type and are mathematical integers inside its range; the
wrap and range rules are explicit.  Floating-point values are 64-bit patterns
and the floating-point operations are a parameter.
-/

namespace CalcKernel

/-- CK integer type identity. -/
inductive IntegerType where
  | i32 | i64 | u32 | u64
deriving DecidableEq, Repr

namespace IntegerType

def fromMir : MirType → Option IntegerType
  | .primitive .i32 => some .i32
  | .primitive .i64 => some .i64
  | .primitive .u32 => some .u32
  | .primitive .u64 => some .u64
  | _ => none

def fromKir : KirValueType → Option IntegerType
  | .scalar t => fromMir t
  | .fixedVector _ _ | .mask _ => none

def bits : IntegerType → Nat
  | .i32 | .u32 => 32
  | .i64 | .u64 => 64

def isSigned : IntegerType → Bool
  | .i32 | .i64 => true
  | .u32 | .u64 => false

def minimum : IntegerType → Int
  | .i32 => -2147483648
  | .i64 => -9223372036854775808
  | .u32 | .u64 => 0

def maximum : IntegerType → Int
  | .i32 => 2147483647
  | .i64 => 9223372036854775807
  | .u32 => 4294967295
  | .u64 => 18446744073709551615

def modulus : IntegerType → Int
  | .i32 | .u32 => 4294967296
  | .i64 | .u64 => 18446744073709551616

def Contains (t : IntegerType) (x : Int) : Prop := t.minimum ≤ x ∧ x ≤ t.maximum

instance (t : IntegerType) (x : Int) : Decidable (t.Contains x) :=
  inferInstanceAs (Decidable (_ ∧ _))

/-- `wrap_integer`: the representative of `x` modulo `2 ^ bits` inside the type. -/
def wrap (t : IntegerType) (x : Int) : Int :=
  let unsigned := x % t.modulus
  if t.isSigned ∧ t.maximum < unsigned then unsigned - t.modulus else unsigned

theorem wrap_of_unsigned {t : IntegerType} (h : t.isSigned = false) (x : Int) :
    t.wrap x = x % t.modulus := by
  simp [wrap, h]

theorem wrap_contains (t : IntegerType) (x : Int) : t.Contains (t.wrap x) := by
  cases t
  case i32 | i64 =>
    simp only [Contains, wrap, minimum, maximum, modulus, isSigned, true_and]
    split <;> omega
  case u32 | u64 =>
    rw [wrap_of_unsigned rfl]
    simp only [Contains, minimum, maximum, modulus]
    omega

theorem wrap_of_contains {t : IntegerType} {x : Int} (h : t.Contains x) : t.wrap x = x := by
  cases t
  case i32 | i64 =>
    simp only [Contains, minimum, maximum] at h
    simp only [wrap, maximum, modulus, isSigned, true_and]
    split <;> omega
  case u32 | u64 =>
    simp only [Contains, minimum, maximum] at h
    rw [wrap_of_unsigned rfl]
    simp only [modulus]
    omega

theorem wrap_emod (t : IntegerType) (x : Int) : t.wrap x % t.modulus = x % t.modulus := by
  cases t
  case i32 | i64 =>
    simp only [wrap, maximum, modulus, isSigned, true_and]
    split <;> omega
  case u32 | u64 =>
    rw [wrap_of_unsigned rfl]
    simp only [modulus]
    omega

/-- Two integers with one residue have one representative in the type. -/
theorem wrap_congr {t : IntegerType} {x y : Int} (h : x % t.modulus = y % t.modulus) :
    t.wrap x = t.wrap y := by
  simp only [wrap, h]

end IntegerType

/-- `str::parse::<BigInt>` on decimal text: an optional sign, then digits in which `_` may stand
after the first. -/
def parseDigits : List Char → Nat → Option Nat
  | [], n => some n
  | c :: cs, n =>
      if c = '_' then parseDigits cs n
      else if c.isDigit then parseDigits cs (n * 10 + (c.toNat - '0'.toNat)) else none

def parseNatural : List Char → Option Nat
  | [] => none
  | c :: cs => if c.isDigit then parseDigits (c :: cs) 0 else none

def parseInteger (text : String) : Option Int :=
  match text.toList with
  | '-' :: cs => (parseNatural cs).map fun n ↦ -(n : Int)
  | '+' :: cs => (parseNatural cs).map fun n ↦ (n : Int)
  | cs => (parseNatural cs).map fun n ↦ (n : Int)

/-- Runtime values.  `undef` is the value of an unassigned local: it may be moved, not computed
with. -/
inductive KirValue where
  | int (type : IntegerType) (value : Int)
  | float (bits : BitVec 64)
  | bool (value : Bool)
  | pointer (address : Int)
  | slice (data len : Int)
  | record (fields : List (String × KirValue))
  | vector (lanes : List KirValue)
  | mask (lanes : List Bool)
  | undef

namespace KirValue

/-- Read the field path of a struct value. -/
def project : KirValue → List String → Option KirValue
  | v, [] => some v
  | .record fields, name :: path => (fields.lookup name).bind fun v ↦ v.project path
  | _, _ :: _ => none

/-- Replace what stands at the field path of a struct value. -/
def update : KirValue → List String → KirValue → Option KirValue
  | _, [], w => some w
  | .record fields, name :: path, w =>
      (fields.lookup name).bind fun v ↦ (v.update path w).map fun v' ↦
        .record (fields.map fun p ↦ if p.1 = name then (p.1, v') else p)
  | _, _ :: _, _ => none

end KirValue

/-- The IEEE operations on 64-bit patterns that KIR's strict floating point refers to. -/
structure FloatOps where
  literal : String → Option (BitVec 64)
  ofInt : Int → BitVec 64
  add : BitVec 64 → BitVec 64 → BitVec 64
  sub : BitVec 64 → BitVec 64 → BitVec 64
  mul : BitVec 64 → BitVec 64 → BitVec 64
  div : BitVec 64 → BitVec 64 → BitVec 64
  neg : BitVec 64 → BitVec 64
  eq : BitVec 64 → BitVec 64 → Bool
  lt : BitVec 64 → BitVec 64 → Bool
  le : BitVec 64 → BitVec 64 → Bool

/-- The mathematical result of an integer operator; division truncates towards zero. -/
def exactBinary (op : MirBinaryOp) (x y : Int) : Option Int :=
  match op with
  | .add => some (x + y)
  | .sub => some (x - y)
  | .mul => some (x * y)
  | .div => if y = 0 then none else some (x.tdiv y)
  | .mod => if y = 0 then none else some (x.tmod y)

namespace FloatOps

def binary (fl : FloatOps) (op : MirBinaryOp) (a b : BitVec 64) : Option (BitVec 64) :=
  match op with
  | .add => some (fl.add a b)
  | .sub => some (fl.sub a b)
  | .mul => some (fl.mul a b)
  | .div => some (fl.div a b)
  | .mod => none

def compare (fl : FloatOps) (op : MirCompareOp) (a b : BitVec 64) : Bool :=
  match op with
  | .eq => fl.eq a b
  | .ne => !fl.eq a b
  | .lt => fl.lt a b
  | .le => fl.le a b
  | .gt => fl.lt b a
  | .ge => fl.le b a

end FloatOps

def compareInt (op : MirCompareOp) (x y : Int) : Bool :=
  match op with
  | .eq => x = y
  | .ne => x ≠ y
  | .lt => x < y
  | .le => x ≤ y
  | .gt => y < x
  | .ge => y ≤ x

/-- Checked `+ - *`: the value when it fits, and the overflow flag.  On overflow the value is not
defined; an instruction that has no flag to report it has no result. -/
def checkedResult (t : IntegerType) (z : Int) (arity : Nat) : Option (List KirValue) :=
  if t.Contains z then some [.int t z, .bool false]
  else if arity = 2 then some [.undef, .bool true] else none

def integerBinary (op : MirBinaryOp) (semantics : KirArithmeticSemantics) (t : IntegerType)
    (x y : Int) (arity : Nat) : Option (List KirValue) :=
  match semantics with
  | .modular => (exactBinary op x y).map fun z ↦ [.int t (t.wrap z)]
  | .checked =>
      match op with
      | .add => checkedResult t (x + y) arity
      | .sub => checkedResult t (x - y) arity
      | .mul => checkedResult t (x * y) arity
      -- the zero and minimum-by-minus-one checks stand in front of a checked division
      | .div | .mod =>
          if y = 0 ∨ ¬ t.Contains (x.tdiv y) then none
          else (exactBinary op x y).map fun z ↦ [.int t z]
  | .strictFloat => none

def evalBinary (fl : FloatOps) (op : MirBinaryOp) (semantics : KirArithmeticSemantics)
    (l r : KirValue) (arity : Nat) : Option (List KirValue) :=
  match l, r with
  | .int t x, .int t' y => if t = t' then integerBinary op semantics t x y arity else none
  | .float a, .float b =>
      if semantics = .strictFloat then (fl.binary op a b).map fun c ↦ [.float c] else none
  | _, _ => none

def evalUnary (fl : FloatOps) (op : MirUnaryOp) (semantics : KirArithmeticSemantics)
    (v : KirValue) (arity : Nat) : Option (List KirValue) :=
  match op, v with
  | .neg, .int t x =>
      match semantics with
      | .modular => some [.int t (t.wrap (-x))]
      | .checked => checkedResult t (-x) arity
      | .strictFloat => none
  | .neg, .float a => if semantics = .strictFloat then some [.float (fl.neg a)] else none
  | .not, .bool b => some [.bool (!b)]
  | _, _ => none

def evalCompare (fl : FloatOps) (op : MirCompareOp) (l r : KirValue) : Option Bool :=
  match l, r with
  | .int t x, .int t' y => if t = t' then some (compareInt op x y) else none
  | .float a, .float b => some (fl.compare op a b)
  | .bool a, .bool b =>
      match op with
      | .eq => some (a == b)
      | .ne => some (a != b)
      | _ => none
  | .pointer a, .pointer b =>
      match op with
      | .eq => some (a == b)
      | .ne => some (a != b)
      | _ => none
  | _, _ => none

/-- An integer is compared with integers of its type only. -/
theorem evalCompare_int_right {fl : FloatOps} {op : MirCompareOp} {l : KirValue}
    {type : IntegerType} {y : Int} {c : Bool} (h : evalCompare fl op l (.int type y) = some c) :
    ∃ x, l = .int type x ∧ c = compareInt op x y := by
  cases l with
  | int type' x =>
      simp only [evalCompare] at h
      split at h
      case isFalse => cases h
      rename_i htype
      subst htype
      exact ⟨x, rfl, (Option.some.inj h).symm⟩
  | _ => cases h

theorem evalCompare_int_left {fl : FloatOps} {op : MirCompareOp} {r : KirValue}
    {type : IntegerType} {x : Int} {c : Bool} (h : evalCompare fl op (.int type x) r = some c) :
    ∃ y, r = .int type y ∧ c = compareInt op x y := by
  cases r with
  | int type' y =>
      simp only [evalCompare] at h
      split at h
      case isFalse => cases h
      rename_i htype
      subst htype
      exact ⟨y, rfl, (Option.some.inj h).symm⟩
  | _ => cases h

def evalCast (fl : FloatOps) (op : MirCastOp) (v : KirValue) : Option KirValue :=
  match op, v with
  | .i32ToF64, .int .i32 x => some (.float (fl.ofInt x))
  | .u32ToF64, .int .u32 x => some (.float (fl.ofInt x))
  | _, _ => none

/-- Whether the check behind a guard fails. -/
def evalCheck (kind : KirCheckConditionKind) (args : List KirValue) : Option Bool :=
  match kind, args with
  | .arithmeticOverflow, _ => some false
  | .divisionByZero, [.int _ y] => some (y = 0)
  | .signedDivisionOverflow, [.int t x, .int _ y] =>
      some (t.isSigned && (x = t.minimum && y = -1))
  | .sliceOutOfBounds, [.slice _ len, .int _ i] => some (len ≤ i)
  | .invalidSubslice, [.slice _ len, .int _ start, .int _ stop] =>
      some (stop < start || len < stop)
  | _, _ => none

/-- The value of a literal at an integer type. -/
def evalConstInt (type : KirValueType) (text : String) : Option KirValue :=
  (IntegerType.fromKir type).bind fun t ↦ (parseInteger text).bind fun x ↦
    if t.Contains x then some (.int t x) else none

end CalcKernel
