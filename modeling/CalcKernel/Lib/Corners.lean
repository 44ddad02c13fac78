import Mathlib.Algebra.Order.Ring.Int
import Mathlib.Order.Interval.Set.Monotone
import Mathlib.Order.Interval.Set.UnorderedInterval
import Mathlib.Tactic.Linarith
import Mathlib.Tactic.Ring

/-!
# Bounds from the corners of a rectangle

A function of two arguments that is monotone or antitone in each of them takes its
extreme values on a rectangle at the corners.  Products are such a function, and so
are truncated quotients when the divisors have one sign.
-/

namespace CalcKernel.Lib

open Set

section Order

universe u v w

variable {α : Type u} {β : Type v} {γ : Type w} [LinearOrder α] [LinearOrder β] [LinearOrder γ]

/-- Monotone or antitone on a set. -/
def OneWayOn (f : α → γ) (s : Set α) : Prop := MonotoneOn f s ∨ AntitoneOn f s

theorem OneWayOn.mem_uIcc {f : α → γ} {a b x : α} (hf : OneWayOn f (Icc a b)) (hx : x ∈ Icc a b) :
    f x ∈ uIcc (f a) (f b) := by
  rw [← uIcc_of_le (hx.1.trans hx.2)] at hf hx
  rcases hf with hf | hf
  · exact hf.image_uIcc_subset (mem_image_of_mem f hx)
  · exact hf.image_uIcc_subset (mem_image_of_mem f hx)

/-- The values of a function at the corners of a rectangle. -/
def corners (f : α → β → γ) (a b : α) (c d : β) : List γ := [f a c, f a d, f b c, f b d]

variable {f : α → β → γ} {a b x : α} {c d y : β}

/-- On a rectangle a function that goes one way in each argument lies between two corners. -/
theorem between_corners (hleft : ∀ y ∈ Icc c d, OneWayOn (fun x ↦ f x y) (Icc a b))
    (hright : ∀ x ∈ Icc a b, OneWayOn (f x) (Icc c d)) (hx : x ∈ Icc a b) (hy : y ∈ Icc c d) :
    (∃ p ∈ corners f a b c d, p ≤ f x y) ∧ ∃ p ∈ corners f a b c d, f x y ≤ p := by
  have hab := hx.1.trans hx.2
  have hmem := (hleft y hy).mem_uIcc hx
  have ha := (hright a (left_mem_Icc.mpr hab)).mem_uIcc hy
  have hb := (hright b (right_mem_Icc.mpr hab)).mem_uIcc hy
  simp only [mem_uIcc] at hmem ha hb
  have hlow : ∀ {p}, (f a c ≤ p ∨ f a d ≤ p ∨ f b c ≤ p ∨ f b d ≤ p) →
      ∃ q ∈ corners f a b c d, q ≤ p := by
    intro p hp
    simpa [corners] using hp
  have hhigh : ∀ {p}, (p ≤ f a c ∨ p ≤ f a d ∨ p ≤ f b c ∨ p ≤ f b d) →
      ∃ q ∈ corners f a b c d, p ≤ q := by
    intro p hp
    simpa [corners] using hp
  constructor
  · apply hlow
    rcases hmem with hmem | hmem
    · rcases ha with ha | ha
      · exact Or.inl (ha.1.trans hmem.1)
      · exact Or.inr (Or.inl (ha.1.trans hmem.1))
    · rcases hb with hb | hb
      · exact Or.inr (Or.inr (Or.inl (hb.1.trans hmem.1)))
      · exact Or.inr (Or.inr (Or.inr (hb.1.trans hmem.1)))
  · apply hhigh
    rcases hmem with hmem | hmem
    · rcases hb with hb | hb
      · exact Or.inr (Or.inr (Or.inr (hmem.2.trans hb.2)))
      · exact Or.inr (Or.inr (Or.inl (hmem.2.trans hb.2)))
    · rcases ha with ha | ha
      · exact Or.inr (Or.inl (hmem.2.trans ha.2))
      · exact Or.inl (hmem.2.trans ha.2)

end Order

/-! ## Products and quotients -/

theorem oneWay_mul_left (y : Int) (s : Set Int) : OneWayOn (fun x ↦ x * y) s := by
  rcases le_total 0 y with hy | hy
  · exact Or.inl fun p _ q _ hpq ↦ mul_le_mul_of_nonneg_right hpq hy
  · exact Or.inr fun p _ q _ hpq ↦ mul_le_mul_of_nonpos_right hpq hy

theorem oneWay_mul_right (x : Int) (s : Set Int) : OneWayOn (fun y ↦ x * y) s := by
  rcases le_total 0 x with hx | hx
  · exact Or.inl fun p _ q _ hpq ↦ mul_le_mul_of_nonneg_left hpq hx
  · exact Or.inr fun p _ q _ hpq ↦ mul_le_mul_of_nonpos_left hpq hx

theorem oneWay_tdiv_left (y : Int) (s : Set Int) : OneWayOn (fun x ↦ x.tdiv y) s := by
  rcases lt_trichotomy y 0 with hy | rfl | hy
  · refine Or.inr fun p _ q _ hpq ↦ ?_
    have h := Int.tdiv_le_tdiv (c := -y) (by omega) hpq
    rw [Int.tdiv_neg, Int.tdiv_neg] at h
    exact neg_le_neg_iff.mp h
  · exact Or.inl fun p _ q _ _ ↦ by simp
  · exact Or.inl fun p _ q _ hpq ↦ Int.tdiv_le_tdiv hy hpq

/-- A larger positive divisor brings the quotient of a dividend that is not negative down. -/
theorem tdiv_le_tdiv_of_divisor_le {x p q : Int} (hx : 0 ≤ x) (hp : 0 < p) (hpq : p ≤ q) :
    x.tdiv q ≤ x.tdiv p := by
  obtain ⟨n, rfl⟩ := Int.eq_ofNat_of_zero_le hx
  obtain ⟨k, rfl⟩ := Int.eq_ofNat_of_zero_le hp.le
  obtain ⟨m, rfl⟩ := Int.eq_ofNat_of_zero_le (hp.le.trans hpq)
  have hk : 0 < k := by exact_mod_cast hp
  have hkm : k ≤ m := by exact_mod_cast hpq
  rw [← Int.ofNat_tdiv, ← Int.ofNat_tdiv]
  exact_mod_cast Nat.div_le_div_left hkm hk

theorem oneWay_tdiv_positive (x : Int) {s : Set Int} (hs : ∀ y ∈ s, 0 < y) :
    OneWayOn (fun y ↦ x.tdiv y) s := by
  rcases le_total 0 x with hx | hx
  · exact Or.inr fun p hp q _ hpq ↦ tdiv_le_tdiv_of_divisor_le hx (hs p hp) hpq
  · refine Or.inl fun p hp q _ hpq ↦ ?_
    have h := tdiv_le_tdiv_of_divisor_le (x := -x) (by omega) (hs p hp) hpq
    rw [Int.neg_tdiv, Int.neg_tdiv] at h
    exact neg_le_neg_iff.mp h

theorem oneWay_tdiv_right (x : Int) {s : Set Int} (hs : (∀ y ∈ s, 0 < y) ∨ ∀ y ∈ s, y < 0) :
    OneWayOn (fun y ↦ x.tdiv y) s := by
  rcases hs with hs | hs
  · exact oneWay_tdiv_positive x hs
  · -- reflect the divisors
    have h := oneWay_tdiv_positive x (s := Neg.neg '' s) (by
      rintro _ ⟨y, hy, rfl⟩
      have := hs y hy
      omega)
    rcases h with h | h
    · refine Or.inl fun p hp q hq hpq ↦ ?_
      have h := h (mem_image_of_mem _ hq) (mem_image_of_mem _ hp) (neg_le_neg hpq)
      simp only [Int.tdiv_neg] at h
      exact neg_le_neg_iff.mp h
    · refine Or.inr fun p hp q hq hpq ↦ ?_
      have h := h (mem_image_of_mem _ hq) (mem_image_of_mem _ hp) (neg_le_neg hpq)
      simp only [Int.tdiv_neg] at h
      exact neg_le_neg_iff.mp h

/-- A divisor of absolute value two or more brings a dividend closer to zero. -/
theorem natAbs_tdiv_lt {x y : Int} (hx : x ≠ 0) (hy : 2 ≤ y.natAbs) :
    (x.tdiv y).natAbs < x.natAbs := by
  rw [Int.natAbs_tdiv]
  exact Nat.div_lt_self (Int.natAbs_pos.mpr hx) hy

/-- A remainder is smaller than every bound on its divisor. -/
theorem tmod_lt_bound {x y m : Int} (hy : y ≠ 0) (hlow : -m ≤ y) (hhigh : y ≤ m) :
    -m < x.tmod y ∧ x.tmod y < m := by
  have h : (x.tmod y).natAbs < y.natAbs := by
    rw [Int.natAbs_tmod]
    exact Nat.mod_lt _ (Int.natAbs_pos.mpr hy)
  omega

end CalcKernel.Lib
