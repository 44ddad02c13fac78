import Mathlib.Order.Nat
import Mathlib.Tactic.Common

/-!
# Loops with fuel

A `while` loop whose body may itself fail to return.  More fuel never changes a
result; an invariant kept by the body holds afterwards; a loop whose body lowers a
measure ends, and one whose body keeps its condition true does not.
-/

namespace CalcKernel.Lib

universe u

variable {σ : Type u}

/-- At most `fuel` rounds; `none` when they are not enough. -/
def whileLoop (cond : σ → Bool) (body : σ → Option σ) : Nat → σ → Option σ
  | 0, s => if cond s then none else some s
  | fuel + 1, s => if cond s then body s >>= whileLoop cond body fuel else some s

namespace whileLoop

variable {cond : σ → Bool} {body : σ → Option σ} {fuel : Nat} {s t : σ}

theorem of_not (h : cond s = false) : whileLoop cond body fuel s = some s := by
  cases fuel <;> simp [whileLoop, h]

theorem round (h : cond s = true) :
    whileLoop cond body (fuel + 1) s = body s >>= whileLoop cond body fuel := by
  simp [whileLoop, h]

/-- What the body keeps holds after the loop, and the condition no longer does. -/
theorem invariant {I : σ → Prop} (hbody : ∀ s t, I s → cond s = true → body s = some t → I t)
    (hs : I s) (h : whileLoop cond body fuel s = some t) : I t ∧ cond t = false := by
  induction fuel generalizing s with
  | zero =>
      by_cases hc : cond s = true
      · simp [whileLoop, hc] at h
      · rw [of_not (by simpa using hc)] at h
        cases h
        exact ⟨hs, by simpa using hc⟩
  | succ fuel ih =>
      by_cases hc : cond s = true
      · rw [round hc] at h
        obtain ⟨r, hr, h⟩ := Option.bind_eq_some_iff.mp h
        exact ih (hbody s r hs hc hr) h
      · rw [of_not (by simpa using hc)] at h
        cases h
        exact ⟨hs, by simpa using hc⟩

variable (cond body fuel) in
/-- A body that returns and lowers a measure is run to the end. -/
theorem terminates {I : σ → Prop} (measure : σ → Nat)
    (hbody : ∀ s, I s → cond s = true → ∃ t, body s = some t ∧ I t ∧ measure t < measure s)
    (hs : I s) (hfuel : measure s ≤ fuel) :
    ∃ t, whileLoop cond body fuel s = some t ∧ I t ∧ cond t = false := by
  induction fuel generalizing s with
  | zero =>
      by_cases hc : cond s = true
      · obtain ⟨t, _, _, hlt⟩ := hbody s hs hc
        omega
      · exact ⟨s, of_not (by simpa using hc), hs, by simpa using hc⟩
  | succ fuel ih =>
      by_cases hc : cond s = true
      · obtain ⟨r, hr, hI, hlt⟩ := hbody s hs hc
        obtain ⟨t, ht, htI, htc⟩ := ih hI (by omega)
        refine ⟨t, ?_, htI, htc⟩
        rw [round hc, hr]
        exact ht
      · exact ⟨s, of_not (by simpa using hc), hs, by simpa using hc⟩

/-- Two loops in step. -/
theorem related {τ : Type*} {R : σ → τ → Prop} {cond' : τ → Bool} {body' : τ → Option τ} {t : τ}
    (hcond : ∀ s t, R s t → cond s = cond' t)
    (hbody : ∀ s t, R s t → Option.Rel R (body s) (body' t)) (h : R s t) :
    Option.Rel R (whileLoop cond body fuel s) (whileLoop cond' body' fuel t) := by
  induction fuel generalizing s t with
  | zero =>
      by_cases hc : cond s = true
      · simp only [whileLoop, ← hcond s t h, hc, if_true]
        exact .none
      · rw [of_not (by simpa using hc), of_not (by simpa [← hcond s t h] using hc)]
        exact .some h
  | succ fuel ih =>
      by_cases hc : cond s = true
      · rw [round hc, round ((hcond s t h).symm.trans hc)]
        have hrel := hbody s t h
        revert hrel
        generalize body s = r, body' t = r'
        rintro (hR | _)
        · exact ih hR
        · exact .none
      · rw [of_not (by simpa using hc), of_not (by simpa [← hcond s t h] using hc)]
        exact .some h

/-- A loop whose condition the body never makes false does not return. -/
theorem stuck {I : σ → Prop} (hcond : ∀ s, I s → cond s = true)
    (hbody : ∀ s t, I s → body s = some t → I t) (hs : I s) :
    whileLoop cond body fuel s = none := by
  induction fuel generalizing s with
  | zero => simp [whileLoop, hcond s hs]
  | succ fuel ih =>
      rw [round (hcond s hs)]
      cases hr : body s with
      | none => rfl
      | some r => exact ih (hbody s r hs hr)

end whileLoop

end CalcKernel.Lib
