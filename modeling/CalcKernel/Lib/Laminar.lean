import Mathlib.Order.CompletePartialOrder
import Mathlib.Data.Set.BooleanAlgebra
import Mathlib.Data.Set.Disjoint
import Mathlib.Tactic.Common

/-!
# Laminar families

Sets of which any two are apart or one strictly inside the other.  Each has a closest
set around it, or none; the sets with one closest set around them are apart, and every
set inside an owner lies in one of the owner's children.
-/

namespace CalcKernel.Lib

universe u v

variable {ι : Type u} {α : Type v} {I : Set ι} {s : ι → Set α} {owner : Option ι}
  {c d i j o : ι}

structure Laminar (I : Set ι) (s : ι → Set α) : Prop where
  nonempty : ∀ i ∈ I, (s i).Nonempty
  nested : ∀ i ∈ I, ∀ j ∈ I, i ≠ j → Disjoint (s i) (s j) ∨ s i ⊂ s j ∨ s j ⊂ s i

/-- The owner is the closest set around the child; no owner means that nothing is. -/
def ChildOf (I : Set ι) (s : ι → Set α) : Option ι → ι → Prop
  | none, c => c ∈ I ∧ ∀ j ∈ I, ¬ s c ⊂ s j
  | some o, c => c ∈ I ∧ o ∈ I ∧ s c ⊂ s o ∧ ∀ j ∈ I, s c ⊂ s j → s o ⊆ s j

theorem ChildOf.mem (h : ChildOf I s owner c) : c ∈ I := by
  cases owner <;> exact h.1

theorem not_childOf_self : ¬ ChildOf I s (some c) c := fun h ↦ h.2.2.1.2 (Set.Subset.refl _)

namespace Laminar

/-- Of two sets that meet, and are not the same member, one is strictly inside the other. -/
theorem ssubset_or_ssubset (hL : Laminar I s) (hi : i ∈ I) (hj : j ∈ I) (hij : i ≠ j) {x : α}
    (hxi : x ∈ s i) (hxj : x ∈ s j) : s i ⊂ s j ∨ s j ⊂ s i :=
  (hL.nested i hi j hj hij).resolve_left fun hdisj ↦ Set.disjoint_left.mp hdisj hxi hxj

/-- The closest set around a member is unique. -/
theorem owner_unique (hL : Laminar I s) {owner' : Option ι} (h : ChildOf I s owner c)
    (h' : ChildOf I s owner' c) : owner = owner' := by
  have hsome : ∀ {a b}, ChildOf I s (some a) c → ChildOf I s (some b) c → a = b := by
    rintro a b ⟨hc, ha, hca, hclosestA⟩ ⟨_, hb, hcb, hclosestB⟩
    by_contra hab
    obtain ⟨x, hx⟩ := hL.nonempty c hc
    rcases hL.ssubset_or_ssubset ha hb hab (hca.1 hx) (hcb.1 hx) with hsub | hsub
    · exact hsub.2 (hclosestB a ha hca)
    · exact hsub.2 (hclosestA b hb hcb)
  cases owner with
  | none =>
      cases owner' with
      | none => exact Eq.refl none
      | some b => exact absurd h'.2.2.1 (h.2 b h'.2.1)
  | some a =>
      cases owner' with
      | none => exact absurd h.2.2.1 (h'.2 a h.2.1)
      | some b => rw [hsome h h']

theorem siblings_disjoint (hL : Laminar I s) (hc : ChildOf I s owner c) (hd : ChildOf I s owner d)
    (hcd : c ≠ d) : Disjoint (s c) (s d) := by
  have hnot : ∀ {a b}, ChildOf I s owner a → ChildOf I s owner b → ¬ s a ⊂ s b := by
    intro a b ha hb hab
    cases owner with
    | none => exact ha.2 b hb.1 hab
    | some o => exact hb.2.2.1.2 (ha.2.2.2 b hb.1 hab)
  rcases hL.nested c hc.mem d hd.mem hcd with hdisj | hsub | hsub
  · exact hdisj
  · exact absurd hsub (hnot hc hd)
  · exact absurd hsub (hnot hd hc)

/-- A smallest set around another one is the closest. -/
theorem childOf_of_smallest (hL : Laminar I s) (size : ι → Nat)
    (hsize : ∀ i ∈ I, ∀ j ∈ I, s i ⊂ s j → size i < size j) (hc : c ∈ I) (ho : o ∈ I)
    (hco : s c ⊂ s o) (hmin : ∀ j ∈ I, s c ⊂ s j → size o ≤ size j) : ChildOf I s (some o) c := by
  refine ⟨hc, ho, hco, fun j hj hcj ↦ ?_⟩
  by_cases hoj : o = j
  · exact hoj ▸ Set.Subset.refl _
  · obtain ⟨x, hx⟩ := hL.nonempty c hc
    rcases hL.ssubset_or_ssubset ho hj hoj (hco.1 hx) (hcj.1 hx) with hsub | hsub
    · exact hsub.1
    · exact absurd (hsize j hj o ho hsub) (Nat.not_lt.mpr (hmin j hj hcj))

/-- What is inside an owner is inside one of its children. -/
theorem exists_child (hL : Laminar I s) (size : ι → Nat) (bound : Nat)
    (hsize : ∀ i ∈ I, ∀ j ∈ I, s i ⊂ s j → size i < size j) (hbound : ∀ i ∈ I, size i ≤ bound)
    (hparent : ∀ i ∈ I, ∃ owner, ChildOf I s owner i) (hi : i ∈ I)
    (howner : ∀ o, owner = some o → o ∈ I ∧ s i ⊂ s o) :
    ∃ c, ChildOf I s owner c ∧ s i ⊆ s c := by
  induction hn : bound - size i using Nat.strong_induction_on generalizing i with
  | _ n ih =>
      obtain ⟨parent, hchild⟩ := hparent i hi
      by_cases heq : parent = owner
      · exact ⟨i, heq ▸ hchild, Set.Subset.refl _⟩
      · cases parent with
        | none =>
            cases owner with
            | none => exact absurd (Eq.refl none) heq
            | some o => exact absurd (howner o (Eq.refl _)).2 (hchild.2 o (howner o (Eq.refl _)).1)
        | some p =>
            obtain ⟨_, hp, hip, hclosest⟩ := hchild
            -- the parent is inside the owner, too
            have hpOwner : ∀ o, owner = some o → o ∈ I ∧ s p ⊂ s o := by
              rintro o rfl
              obtain ⟨ho, hio⟩ := howner o (Eq.refl _)
              refine ⟨ho, ?_⟩
              obtain ⟨x, hx⟩ := hL.nonempty i hi
              have hpo : p ≠ o := fun h ↦ heq (congrArg some h)
              rcases hL.ssubset_or_ssubset hp ho hpo (hip.1 hx) (hio.1 hx) with hsub | hsub
              · exact hsub
              · exact absurd (hclosest o ho hio) hsub.2
            have hlt := hsize i hi p hp hip
            have hle := hbound p hp
            obtain ⟨c, hc, hpc⟩ := ih (bound - size p) (by omega) hp hpOwner (Eq.refl _)
            exact ⟨c, hc, hip.1.trans hpc⟩

end Laminar

end CalcKernel.Lib
