import Mathlib.Algebra.GroupWithZero.Nat
import Mathlib.Data.List.Basic
import Mathlib.Tactic.Common

/-!
# Budgets

Stages that take units from a budget of 32 bits and fail when too little is left.  A stage with a
fixed price gives its result whenever the budget pays for it, and fails otherwise; prices add up
along sequences, folds and loops.
-/

namespace CalcKernel.Lib

universe v

def u32Max : Nat := 2 ^ 32 - 1

/-- The work is taken from what is left. -/
def spendUnits (units remaining : Nat) : Option Nat :=
  if units ≤ u32Max ∧ units ≤ remaining then some (remaining - units) else none

/-- A stage with a budget: it gives its result with what is left. -/
abbrev Budgeted (α : Type) := StateT Nat Option α

def spend (units : Nat) : Budgeted Unit := fun remaining ↦ (spendUnits units remaining).map ((), ·)

variable {α β : Type} {units units' : Nat} {x : Budgeted α} {a : α} {b : β}

/-- The stage gives its result for its price, and fails with less. -/
def Costs (x : Budgeted α) (units : Nat) (a : α) : Prop :=
  ∀ remaining ≤ u32Max,
    x remaining = if units ≤ remaining then some (a, remaining - units) else none

def Yields (x : Budgeted α) (a : α) : Prop := ∃ units, Costs x units a

theorem Costs.pure (a : α) : Costs (pure a : Budgeted α) 0 a :=
  fun _ _ ↦ (if_pos (Nat.zero_le _)).symm

theorem Costs.spend (units : Nat) : Costs (spend units) units () := by
  intro remaining hmax
  unfold Lib.spend spendUnits
  by_cases h : units ≤ remaining
  · rw [if_pos h, if_pos ⟨Nat.le_trans h hmax, h⟩]
    rfl
  · rw [if_neg h, if_neg fun hle ↦ h hle.2]
    rfl

theorem Costs.bind {f : α → Budgeted β} (h : Costs x units a) (hf : Costs (f a) units' b) :
    Costs (x >>= f) (units + units') b := by
  intro remaining hmax
  change (x remaining).bind (fun p ↦ f p.1 p.2) = _
  rw [h remaining hmax]
  by_cases hle : units ≤ remaining
  · rw [if_pos hle, Option.bind_some, hf _ (Nat.le_trans (Nat.sub_le _ _) hmax)]
    by_cases hle' : units + units' ≤ remaining
    · rw [if_pos hle', if_pos (by omega), Nat.sub_sub]
    · rw [if_neg hle', if_neg (by omega)]
  · rw [if_neg hle, if_neg (by omega)]
    rfl

theorem Costs.yields (h : Costs x units a) : Yields x a := ⟨units, h⟩

namespace Yields

theorem pure (a : α) : Yields (pure a : Budgeted α) a := ⟨0, .pure a⟩

theorem bind {f : α → Budgeted β} (h : Yields x a) (hf : Yields (f a) b) : Yields (x >>= f) b := by
  obtain ⟨units, h⟩ := h
  obtain ⟨units', hf⟩ := hf
  exact ⟨units + units', h.bind hf⟩

theorem spend_bind {x : Unit → Budgeted α} (units : Nat) (h : Yields (x ()) a) :
    Yields (spend units >>= x) a :=
  (Costs.spend units).yields.bind h

theorem map {f : α → β} (h : Yields x a) : Yields (f <$> x) (f a) := by
  rw [map_eq_pure_bind]
  exact h.bind (pure _)

/-- A fold, where each step yields what the plain step gives. -/
theorem foldlM {σ : Type} {ι : Type v} {step : σ → ι → Budgeted σ} {plain : σ → ι → σ}
    (h : ∀ s i, Yields (step s i) (plain s i)) (l : List ι) (s : σ) :
    Yields (l.foldlM step s) (l.foldl plain s) := by
  induction l generalizing s with
  | nil => exact pure s
  | cons i l ih =>
      rw [List.foldlM_cons, List.foldl_cons]
      exact (h s i).bind (ih _)

/-- Each entry of a list in turn, where each yields something that is related to it. -/
theorem mapM {ι : Type v} {g : ι → Budgeted α} {R : ι → α → Prop} {l : List ι}
    (h : ∀ i ∈ l, ∃ a, Yields (g i) a ∧ R i a) :
    ∃ as, Yields (l.mapM g) as ∧ List.Forall₂ R l as := by
  induction l with
  | nil => exact ⟨[], by rw [List.mapM_nil]; exact pure [], .nil⟩
  | cons i l ih =>
      obtain ⟨a, ha, hR⟩ := h i List.mem_cons_self
      obtain ⟨as, has, hall⟩ := ih fun j hj ↦ h j (List.mem_cons_of_mem i hj)
      refine ⟨a :: as, ?_, .cons hR hall⟩
      rw [List.mapM_cons]
      exact ha.bind (has.bind (pure _))

theorem mapM_eq {ι : Type} {g : ι → Budgeted α} {plain : ι → α} {l : List ι}
    (h : ∀ i ∈ l, Yields (g i) (plain i)) : Yields (l.mapM g) (l.map plain) := by
  induction l with
  | nil => rw [List.mapM_nil]; exact pure []
  | cons i l ih =>
      rw [List.mapM_cons]
      exact (h i List.mem_cons_self).bind
        ((ih fun j hj ↦ h j (List.mem_cons_of_mem i hj)).bind (pure _))

end Yields

/-! ## Loops -/

/-- Rounds until the condition fails, as long as there is fuel. -/
def payLoop {σ : Type} (cond : σ → Bool) (body : σ → Budgeted σ) : Nat → σ → Budgeted σ
  | 0, _ => fun _ ↦ none
  | fuel + 1, s => if cond s then body s >>= payLoop cond body fuel else pure s

/-- Rounds that each take a unit at least; the budget bounds them. -/
def payWhile {σ : Type} (cond : σ → Bool) (body : σ → Budgeted σ) (s : σ) : Budgeted σ :=
  fun remaining ↦ payLoop cond body (remaining + 1) s remaining

section Loops

variable {σ : Type} {cond : σ → Bool} {body : σ → Budgeted σ}

/-- A loop whose rounds keep an invariant and lessen a measure yields a state that ends it. -/
theorem payWhile_yields {I : σ → Prop} (measure : σ → Nat)
    (hbody : ∀ s, I s → cond s = true → ∃ units s', Costs (body s) units s' ∧ 1 ≤ units ∧ I s' ∧
      measure s' < measure s) {s : σ} (hs : I s) :
    ∃ t, Yields (payWhile cond body s) t ∧ I t ∧ cond t = false := by
  have hloop : ∀ n s, I s → measure s < n → ∃ units t, I t ∧ cond t = false ∧
      ∀ fuel, ∀ remaining ≤ u32Max, remaining < fuel → payLoop cond body fuel s remaining =
        if units ≤ remaining then some (t, remaining - units) else none := by
    intro n
    induction n with
    | zero => exact fun s _ h ↦ absurd h (Nat.not_lt_zero _)
    | succ n ih =>
        intro s hs hn
        by_cases hcond : cond s = true
        · obtain ⟨units, s', hcosts, hpos, hs', hless⟩ := hbody s hs hcond
          obtain ⟨units', t, ht, hend, hrest⟩ := ih s' hs' (by omega)
          refine ⟨units + units', t, ht, hend, fun fuel remaining hmax hfuel ↦ ?_⟩
          obtain ⟨fuel, rfl⟩ := Nat.exists_eq_succ_of_ne_zero (Nat.ne_zero_of_lt hfuel)
          rw [payLoop, if_pos hcond]
          change (body s remaining).bind (fun p ↦ payLoop cond body fuel p.1 p.2) = _
          rw [hcosts remaining hmax]
          by_cases hle : units ≤ remaining
          · rw [if_pos hle, Option.bind_some,
              hrest fuel (remaining - units) (Nat.le_trans (Nat.sub_le _ _) hmax) (by omega)]
            by_cases hle' : units + units' ≤ remaining
            · rw [if_pos hle', if_pos (by omega), Nat.sub_sub]
            · rw [if_neg hle', if_neg (by omega)]
          · rw [if_neg hle, if_neg (by omega)]
            rfl
        · refine ⟨0, s, hs, by simpa using hcond, fun fuel remaining _ hfuel ↦ ?_⟩
          obtain ⟨fuel, rfl⟩ := Nat.exists_eq_succ_of_ne_zero (Nat.ne_zero_of_lt hfuel)
          rw [payLoop, if_neg hcond, if_pos (Nat.zero_le _)]
          rfl
  obtain ⟨units, t, ht, hend, hrun⟩ := hloop (measure s + 1) s hs (Nat.lt_succ_self _)
  exact ⟨t, ⟨units, fun remaining hmax ↦ hrun _ remaining hmax (Nat.lt_succ_self _)⟩, ht, hend⟩

end Loops

end CalcKernel.Lib
