import Mathlib.Logic.Function.Basic
import Mathlib.Order.MinMax
import Mathlib.Order.Nat

/-!
# Components of a forest

A forest over the natural numbers in which every parent is at most its child, and
the union of two components under the smaller root.
-/

namespace CalcKernel.Lib

structure Forest where
  parent : Nat → Nat
  le : ∀ x, parent x ≤ x

namespace Forest

def discrete : Forest := ⟨id, fun _ ↦ le_rfl⟩

/-- Climbs to the root.  A walk from `x` makes at most `x` steps. -/
def climb (parent : Nat → Nat) : Nat → Nat → Nat
  | 0, x => x
  | n + 1, x => if parent x = x then x else climb parent n (parent x)

def find (F : Forest) (x : Nat) : Nat := climb F.parent x x

theorem climb_eq {F : Forest} {n m x : Nat} (hn : x ≤ n) (hm : x ≤ m) :
    climb F.parent n x = climb F.parent m x := by
  induction x using Nat.strongRecOn generalizing n m with
  | ind x ih =>
      have hle := F.le x
      by_cases hroot : F.parent x = x
      · cases n <;> cases m <;> simp [climb, hroot]
      · have hlt : F.parent x < x := by omega
        obtain ⟨n, rfl⟩ := Nat.exists_eq_succ_of_ne_zero (n := n) (by omega)
        obtain ⟨m, rfl⟩ := Nat.exists_eq_succ_of_ne_zero (n := m) (by omega)
        simp only [climb, hroot, if_false]
        exact ih _ hlt (by omega) (by omega)

theorem find_of_root {F : Forest} {x : Nat} (h : F.parent x = x) : F.find x = x := by
  unfold find
  cases x <;> simp [climb, h]

theorem find_parent (F : Forest) (x : Nat) : F.find (F.parent x) = F.find x := by
  by_cases hroot : F.parent x = x
  · rw [hroot]
  · have hle := F.le x
    obtain ⟨n, rfl⟩ := Nat.exists_eq_succ_of_ne_zero (n := x) (by omega)
    unfold find
    rw [climb, if_neg hroot]
    exact climb_eq le_rfl (by omega)

/-- A property that holds of roots and passes from parents to children holds everywhere. -/
theorem rootInduction (F : Forest) {p : Nat → Prop} (root : ∀ x, F.parent x = x → p x)
    (child : ∀ x, F.parent x ≠ x → p (F.parent x) → p x) (x : Nat) : p x := by
  induction x using Nat.strongRecOn with
  | ind x ih =>
      by_cases hroot : F.parent x = x
      · exact root x hroot
      · have hle := F.le x
        exact child x hroot (ih _ (by omega))

theorem parent_find (F : Forest) (x : Nat) : F.parent (F.find x) = F.find x := by
  induction x using F.rootInduction with
  | root x hroot => rw [find_of_root hroot, hroot]
  | child x _ ih => rwa [find_parent] at ih

/-- The larger root becomes a child of the smaller. -/
def union (F : Forest) (x y : Nat) : Forest where
  parent := Function.update F.parent (max (F.find x) (F.find y)) (min (F.find x) (F.find y))
  le z := by
    by_cases hz : z = max (F.find x) (F.find y)
    · subst hz
      rw [Function.update_self]
      exact min_le_max
    · rw [Function.update_of_ne hz]
      exact F.le z

theorem find_union (F : Forest) (x y z : Nat) :
    (F.union x y).find z =
      if F.find z = max (F.find x) (F.find y) then min (F.find x) (F.find y) else F.find z := by
  have hmin : F.parent (min (F.find x) (F.find y)) = min (F.find x) (F.find y) := by
    rcases min_choice (F.find x) (F.find y) with h | h <;> rw [h, parent_find]
  have hmax : F.parent (max (F.find x) (F.find y)) = max (F.find x) (F.find y) := by
    rcases max_choice (F.find x) (F.find y) with h | h <;> rw [h, parent_find]
  have hroot : (F.union x y).find (min (F.find x) (F.find y)) = min (F.find x) (F.find y) := by
    refine find_of_root ?_
    by_cases heq : min (F.find x) (F.find y) = max (F.find x) (F.find y)
    · simp only [union, heq, Function.update_self]
    · simp only [union, Function.update_of_ne heq, hmin]
  have hother : ∀ z, z ≠ max (F.find x) (F.find y) → (F.union x y).parent z = F.parent z :=
    fun z hz ↦ Function.update_of_ne hz _ _
  have hchild : (F.union x y).find (max (F.find x) (F.find y)) = min (F.find x) (F.find y) := by
    rw [← find_parent, show (F.union x y).parent _ = _ from Function.update_self _ _ _, hroot]
  induction z using F.rootInduction with
  | root z hz =>
      rw [find_of_root hz]
      split
      · rename_i heq
        rw [heq, hchild]
      · rename_i hne
        exact find_of_root ((hother z hne).trans hz)
  | child z hz ih =>
      rw [find_parent] at ih
      rw [← ih, ← find_parent, hother z]
      intro heq
      exact hz (heq ▸ hmax)

/-- Union keeps members of one component together and joins the two components. -/
theorem find_union_eq {F : Forest} {a b : Nat} (x y : Nat) (h : F.find a = F.find b) :
    (F.union x y).find a = (F.union x y).find b := by
  rw [find_union, find_union, h]

theorem find_union_self (F : Forest) (x y : Nat) :
    (F.union x y).find x = (F.union x y).find y := by
  rw [find_union, find_union]
  rcases le_total (F.find x) (F.find y) with h | h
  · rw [max_eq_right h, min_eq_left h, if_pos rfl]
    split
    · rfl
    · rfl
  · rw [max_eq_left h, min_eq_right h, if_pos rfl]
    split
    · rfl
    · rfl

/-- After the unions of a list of pairs every pair lies in one component. -/
theorem find_foldl_union {pairs : List (Nat × Nat)} {F : Forest} {a b : Nat}
    (h : (a, b) ∈ pairs ∨ F.find a = F.find b) :
    (pairs.foldl (fun F p ↦ F.union p.1 p.2) F).find a =
      (pairs.foldl (fun F p ↦ F.union p.1 p.2) F).find b := by
  induction pairs generalizing F with
  | nil => simpa using h
  | cons p pairs ih =>
      refine ih ?_
      rcases h with hmem | heq
      · rcases List.mem_cons.mp hmem with rfl | hmem
        · exact .inr (find_union_self F a b)
        · exact .inl hmem
      · exact .inr (find_union_eq p.1 p.2 heq)

end Forest

/-- The pairs of a list whose first member stands before the second. -/
def pairs {α : Type*} : List α → List (α × α)
  | [] => []
  | x :: xs => xs.map (fun y ↦ (x, y)) ++ pairs xs

theorem mem_pairs {α : Type*} {l : List α} {x y : α} (hx : x ∈ l) (hy : y ∈ l) (hne : x ≠ y) :
    (x, y) ∈ pairs l ∨ (y, x) ∈ pairs l := by
  induction l with
  | nil => cases hx
  | cons a l ih =>
      simp only [pairs, List.mem_append, List.mem_map]
      rcases List.mem_cons.mp hx with rfl | hx' <;> rcases List.mem_cons.mp hy with rfl | hy'
      · exact absurd rfl hne
      · exact .inl (.inl ⟨y, hy', rfl⟩)
      · exact .inr (.inl ⟨x, hx', rfl⟩)
      · rcases ih hx' hy' with h | h
        · exact .inl (.inr h)
        · exact .inr (.inr h)

end CalcKernel.Lib
