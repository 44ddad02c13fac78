import Mathlib.Data.List.Basic
import Mathlib.Data.List.Nodup
import Mathlib.Data.List.Perm.Basic

/-!
# Dropping places of a list

What is left of a list when the elements in some places are dropped.
-/

namespace CalcKernel.Lib

universe u v

variable {α : Type u} {β : Type v}

/-- The list without the elements in the dropped places. -/
def eraseAt (drop : Nat → Bool) : List α → List α
  | [] => []
  | a :: l =>
      if drop 0 then eraseAt (fun k ↦ drop (k + 1)) l
      else a :: eraseAt (fun k ↦ drop (k + 1)) l

theorem eraseAt_nil (drop : Nat → Bool) : eraseAt drop ([] : List α) = [] := Eq.refl _

theorem eraseAt_cons (drop : Nat → Bool) (a : α) (l : List α) :
    eraseAt drop (a :: l) = if drop 0 then eraseAt (fun k ↦ drop (k + 1)) l
      else a :: eraseAt (fun k ↦ drop (k + 1)) l :=
  Eq.refl _

theorem eraseAt_map (f : α → β) (drop : Nat → Bool) (l : List α) :
    eraseAt drop (l.map f) = (eraseAt drop l).map f := by
  induction l generalizing drop with
  | nil => exact Eq.refl _
  | cons a l ih =>
      rw [List.map_cons, eraseAt_cons, eraseAt_cons, ih]
      cases drop 0 <;> exact Eq.refl _

theorem eraseAt_zip (drop : Nat → Bool) (l : List α) (l' : List β) :
    (eraseAt drop l).zip (eraseAt drop l') = eraseAt drop (l.zip l') := by
  induction l generalizing drop l' with
  | nil => exact Eq.refl _
  | cons a l ih =>
      cases l' with
      | nil => rw [eraseAt_nil, List.zip_nil_right, List.zip_nil_right, eraseAt_nil]
      | cons b l' =>
          rw [List.zip_cons_cons, eraseAt_cons, eraseAt_cons, eraseAt_cons, ← ih]
          cases drop 0 <;> exact Eq.refl _

theorem length_eraseAt_congr {l : List α} {l' : List β} (h : l.length = l'.length)
    (drop : Nat → Bool) : (eraseAt drop l).length = (eraseAt drop l').length := by
  induction l generalizing drop l' with
  | nil =>
      obtain rfl := List.length_eq_zero_iff.mp h.symm
      exact Eq.refl _
  | cons a l ih =>
      cases l' with
      | nil => cases h
      | cons b l' =>
          have hrest := ih (Nat.succ.inj h) (fun k ↦ drop (k + 1))
          rw [eraseAt_cons, eraseAt_cons]
          cases drop 0
          · exact congrArg (· + 1) hrest
          · exact hrest

theorem eraseAt_sublist (drop : Nat → Bool) (l : List α) : (eraseAt drop l).Sublist l := by
  induction l generalizing drop with
  | nil => exact List.Sublist.slnil
  | cons a l ih =>
      rw [eraseAt_cons]
      cases drop 0
      · exact (ih _).cons_cons a
      · exact (ih _).cons a

theorem mem_eraseAt {drop : Nat → Bool} {l : List α} {a : α} :
    a ∈ eraseAt drop l ↔ ∃ k, drop k = false ∧ l[k]? = some a := by
  induction l generalizing drop with
  | nil => simp [eraseAt_nil]
  | cons b l ih =>
      have hsplit : (∃ k, drop k = false ∧ (b :: l)[k]? = some a) ↔
          (drop 0 = false ∧ b = a) ∨ ∃ k, drop (k + 1) = false ∧ l[k]? = some a := by
        constructor
        · rintro ⟨k, hk, hget⟩
          cases k with
          | zero => exact .inl ⟨hk, Option.some.inj hget⟩
          | succ k => exact .inr ⟨k, hk, hget⟩
        · rintro (⟨hzero, rfl⟩ | ⟨k, hk, hget⟩)
          · exact ⟨0, hzero, Eq.refl _⟩
          · exact ⟨k + 1, hk, hget⟩
      rw [hsplit, eraseAt_cons]
      cases hzero : drop 0
      · rw [if_neg Bool.false_ne_true, List.mem_cons, ih]
        exact or_congr_left ⟨fun h ↦ ⟨Eq.refl _, h.symm⟩, fun h ↦ h.2.symm⟩
      · rw [if_pos (Eq.refl _), ih]
        simp

theorem eraseAt_eq_self {drop : Nat → Bool} {l : List α} (h : ∀ k < l.length, drop k = false) :
    eraseAt drop l = l := by
  induction l generalizing drop with
  | nil => exact Eq.refl _
  | cons a l ih =>
      rw [eraseAt_cons, h 0 (Nat.succ_pos _), if_neg Bool.false_ne_true,
        ih fun k hk ↦ h (k + 1) (Nat.succ_lt_succ hk)]

/-- What is dropped together with what is left. -/
theorem eraseAt_append_perm {drop : Nat → Bool} {l dropped : List α} (hl : l.Nodup)
    (hdropped : dropped.Nodup)
    (hmem : ∀ a, a ∈ dropped ↔ ∃ k, drop k = true ∧ l[k]? = some a) :
    (eraseAt drop l ++ dropped).Perm l := by
  have hplace {a : α} {j k : Nat} (hj : l[j]? = some a) (hk : l[k]? = some a) : j = k := by
    obtain ⟨hjlt, hj⟩ := List.getElem?_eq_some_iff.mp hj
    obtain ⟨hklt, hk⟩ := List.getElem?_eq_some_iff.mp hk
    exact (List.Nodup.getElem_inj_iff hl).mp (hj.trans hk.symm)
  have hnodup : (eraseAt drop l ++ dropped).Nodup := by
    refine List.nodup_append.mpr ⟨(eraseAt_sublist drop l).nodup hl, hdropped, ?_⟩
    rintro a ha b hb rfl
    obtain ⟨j, hj, hget⟩ := mem_eraseAt.mp ha
    obtain ⟨k, hk, hget'⟩ := (hmem a).mp hb
    rw [hplace hget hget', hk] at hj
    cases hj
  refine (List.perm_ext_iff_of_nodup hnodup hl).mpr fun a ↦ ?_
  rw [List.mem_append, mem_eraseAt, hmem]
  constructor
  · rintro (⟨k, -, hk⟩ | ⟨k, -, hk⟩) <;> exact List.mem_of_getElem? hk
  · intro ha
    obtain ⟨k, hk⟩ := List.mem_iff_getElem?.mp ha
    cases hdrop : drop k
    · exact .inl ⟨k, hdrop, hk⟩
    · exact .inr ⟨k, hdrop, hk⟩

end CalcKernel.Lib
