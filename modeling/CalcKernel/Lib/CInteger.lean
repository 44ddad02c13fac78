import Mathlib.Data.Int.ModEq
import Mathlib.Tactic.Linarith
import Mathlib.Tactic.Ring

/-!
# Integer arithmetic of C

An integer type is its width and its signedness; its rank is its width.  Values
are mathematical integers.  Conversion to a type that cannot hold the value is
modular, which the standard requires for unsigned types and the common compilers
define for signed ones.  An operation without a result is undefined behaviour.
-/

namespace CalcKernel.Lib

structure CInteger where
  bits : Nat
  signed : Bool
deriving DecidableEq, Repr

inductive COperator where
  | add | sub | mul | div | rem
deriving DecidableEq, Repr

namespace CInteger

variable (t : CInteger)

def modulus : Int := 2 ^ t.bits

def minimum : Int := if t.signed then -(2 ^ (t.bits - 1)) else 0

def maximum : Int := if t.signed then 2 ^ (t.bits - 1) - 1 else 2 ^ t.bits - 1

def Contains (x : Int) : Prop := t.minimum ≤ x ∧ x ≤ t.maximum

instance (x : Int) : Decidable (t.Contains x) := inferInstanceAs (Decidable (_ ∧ _))

/-- The integer types with at least one bit. -/
def Wide : Prop := 0 < t.bits

/-- Conversion to the type. -/
def convert (x : Int) : Int :=
  if t.maximum < x % t.modulus then x % t.modulus - t.modulus else x % t.modulus

/-- The common type of two operands whose types are at least as wide as `int`. -/
def common (s t : CInteger) : CInteger :=
  if s.signed = t.signed then if s.bits < t.bits then t else s
  else if s.signed then if t.bits < s.bits then s else t
  else if s.bits < t.bits then t else s

/-- The mathematical result of an operator; division truncates towards zero. -/
def exact (op : COperator) (x y : Int) : Option Int :=
  match op with
  | .add => some (x + y)
  | .sub => some (x - y)
  | .mul => some (x * y)
  | .div => if y = 0 then none else some (x.tdiv y)
  | .rem => if y = 0 then none else some (x.tmod y)

/-- An operator at its common type: signed results outside the type are undefined, and so is a
remainder whose quotient is. -/
def binary (op : COperator) (x y : Int) : Option Int :=
  (exact op x y).bind fun z ↦
    if t.signed then
      if t.Contains z ∧ (op = .rem → t.Contains (x.tdiv y)) then some z else none
    else some (t.convert z)

def negate (x : Int) : Option Int :=
  if t.signed then if t.Contains (-x) then some (-x) else none else some (t.convert (-x))

section Conversion

variable {t : CInteger} {x y : Int}

theorem modulus_pos (t : CInteger) : 0 < t.modulus := by
  unfold modulus
  positivity

theorem two_half_eq_modulus (h : t.Wide) : 2 * 2 ^ (t.bits - 1) = t.modulus := by
  have hbits : t.bits - 1 + 1 = t.bits := Nat.sub_add_cancel h
  rw [modulus, ← hbits, pow_succ, hbits, mul_comm]

/-- The type holds `modulus` consecutive integers. -/
theorem maximum_eq (h : t.Wide) : t.maximum = t.minimum + t.modulus - 1 := by
  have hhalf := two_half_eq_modulus h
  unfold maximum minimum
  split
  · linarith
  · simp only [modulus, zero_add]

theorem minimum_nonpos (t : CInteger) : t.minimum ≤ 0 := by
  have hpos : (0 : Int) < 2 ^ (t.bits - 1) := by positivity
  unfold minimum
  split
  · linarith
  · exact le_refl 0

theorem maximum_nonneg (t : CInteger) : 0 ≤ t.maximum := by
  have hhalf : (0 : Int) < 2 ^ (t.bits - 1) := by positivity
  have hfull : (0 : Int) < 2 ^ t.bits := by positivity
  unfold maximum
  split <;> omega

theorem convert_emod (t : CInteger) (x : Int) : t.convert x % t.modulus = x % t.modulus := by
  unfold convert
  split
  · rw [Int.sub_emod_right, Int.emod_emod_of_dvd _ (Int.dvd_refl _)]
  · exact Int.emod_emod_of_dvd _ (Int.dvd_refl _)

theorem convert_congr (h : x % t.modulus = y % t.modulus) : t.convert x = t.convert y := by
  simp only [convert, h]

theorem convert_contains (h : t.Wide) (x : Int) : t.Contains (t.convert x) := by
  have hmax := maximum_eq h
  have hmin := t.minimum_nonpos
  have htop := t.maximum_nonneg
  have hlow := Int.emod_nonneg x t.modulus_pos.ne'
  have hhigh := Int.emod_lt_of_pos x t.modulus_pos
  unfold convert Contains
  split <;> omega

/-- A type holds one integer of each residue. -/
theorem eq_of_emod_eq (h : t.Wide) (hx : t.Contains x) (hy : t.Contains y)
    (hmod : x % t.modulus = y % t.modulus) : x = y := by
  have hmax := maximum_eq h
  obtain ⟨k, hk⟩ := Int.dvd_of_emod_eq_zero (Int.emod_eq_emod_iff_emod_sub_eq_zero.mp hmod)
  have hpos := t.modulus_pos
  obtain ⟨hxmin, hxmax⟩ := hx
  obtain ⟨hymin, hymax⟩ := hy
  have hlow : -t.modulus < t.modulus * k := by omega
  have hhigh : t.modulus * k < t.modulus := by omega
  have hk0 : k = 0 := by
    have h1 : -1 < k := by nlinarith
    have h2 : k < 1 := by nlinarith
    omega
  rw [hk0, Int.mul_zero] at hk
  omega

theorem convert_of_contains (h : t.Wide) (hx : t.Contains x) : t.convert x = x :=
  eq_of_emod_eq h (convert_contains h x) hx (t.convert_emod x)

end Conversion

section Common

theorem common_self (t : CInteger) : common t t = t := by
  simp [common]

end Common

section Modular

variable {t u : CInteger} {x y z : Int}

/-- Addition, subtraction and multiplication respect residues. -/
theorem exact_emod {op : COperator} (hop : op ≠ .div ∧ op ≠ .rem) {n x' y' z' : Int}
    (hx : x' % n = x % n) (hy : y' % n = y % n) (hz : exact op x y = some z)
    (hz' : exact op x' y' = some z') : z' % n = z % n := by
  cases op with
  | add =>
      cases hz
      cases hz'
      exact Int.ModEq.add hx hy
  | sub =>
      cases hz
      cases hz'
      exact Int.ModEq.sub hx hy
  | mul =>
      cases hz
      cases hz'
      exact Int.ModEq.mul hx hy
  | div => exact absurd rfl hop.1
  | rem => exact absurd rfl hop.2

theorem exact_isSome {op : COperator} (hop : op ≠ .div ∧ op ≠ .rem) (x y : Int) :
    ∃ z, exact op x y = some z := by
  cases op with
  | add | sub | mul => exact ⟨_, rfl⟩
  | div => exact absurd rfl hop.1
  | rem => exact absurd rfl hop.2

/-- Adding, subtracting or multiplying in the unsigned type of the same width and converting back
is the modular operation. -/
theorem convert_binary_unsigned {op : COperator} (hop : op ≠ .div ∧ op ≠ .rem)
    (hu : u.signed = false) (hbits : u.bits = t.bits) (hz : exact op x y = some z) :
    ∃ w, u.binary op (u.convert x) (u.convert y) = some w ∧ t.convert w = t.convert z := by
  obtain ⟨z', hz'⟩ := exact_isSome hop (u.convert x) (u.convert y)
  have hmod : u.modulus = t.modulus := by rw [modulus, modulus, hbits]
  refine ⟨u.convert z', by simp [binary, hz', hu], ?_⟩
  apply convert_congr
  rw [← hmod, u.convert_emod]
  exact exact_emod hop (u.convert_emod x) (u.convert_emod y) hz hz'

end Modular

section Division

variable {t u : CInteger} {x y z : Int}

theorem exact_div_nonneg {op : COperator} (hop : op = .div ∨ op = .rem) (hx : 0 ≤ x)
    (hy : 0 ≤ y) (hz : exact op x y = some z) : 0 ≤ z ∧ z ≤ x := by
  rcases hop with rfl | rfl
  · simp only [exact] at hz
    split at hz
    · cases hz
    · cases hz
      exact ⟨Int.tdiv_nonneg hx hy, Int.tdiv_le_self y hx⟩
  · simp only [exact] at hz
    split at hz
    · cases hz
    · cases hz
      refine ⟨Int.tmod_nonneg y hx, ?_⟩
      have hdef := Int.tmod_add_mul_tdiv x y
      have hmul : 0 ≤ y * x.tdiv y := Int.mul_nonneg hy (Int.tdiv_nonneg hx hy)
      linarith

/-- On operands that are not negative the unsigned quotient and remainder are the signed ones. -/
theorem binary_unsigned_of_nonneg {op : COperator} (hop : op = .div ∨ op = .rem)
    (hu : u.signed = false) (hwide : u.Wide) (hx : 0 ≤ x) (hy : 0 ≤ y) (hxu : u.Contains x)
    (hyu : u.Contains y) (hz : exact op x y = some z) :
    u.binary op (u.convert x) (u.convert y) = some z := by
  obtain ⟨hz0, hzx⟩ := exact_div_nonneg hop hx hy hz
  have hzu : u.Contains z := ⟨u.minimum_nonpos.trans hz0, hzx.trans hxu.2⟩
  rw [convert_of_contains hwide hxu, convert_of_contains hwide hyu]
  simp [binary, hz, hu, convert_of_contains hwide hzu]

end Division

end CInteger

end CalcKernel.Lib
