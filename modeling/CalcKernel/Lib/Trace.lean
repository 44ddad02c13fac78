import Mathlib.Data.List.Infix
import Mathlib.Logic.Relation
import Mathlib.Tactic.Common

/-!
# Machines with events

A deterministic machine whose steps give events.  Two machines have the same trace
where each answers every step of the other; it is enough that the second answers one
step of the first by one or more of its own.
-/

namespace CalcKernel.Lib

universe u v w

/-- A step gives events, and the state after it unless it was the last one. -/
structure EventMachine (σ : Type u) (ε : Type v) where
  step : σ → List ε × Option σ

namespace EventMachine

variable {σ : Type u} {τ : Type w} {ε : Type v} {A : EventMachine σ ε} {B : EventMachine τ ε}
  {R : σ → τ → Prop} {s s' : σ} {t t' : τ} {es es' : List ε}

/-- The events of the first steps. -/
def trace (A : EventMachine σ ε) : Nat → σ → List ε
  | 0, _ => []
  | n + 1, s => (A.step s).1 ++ ((A.step s).2.map (A.trace n)).getD []

/-- The two machines give the same events, whether their runs end or not. -/
def SameTrace (A : EventMachine σ ε) (B : EventMachine τ ε) (s : σ) (t : τ) : Prop :=
  (∀ n, ∃ m, A.trace n s <+: B.trace m t) ∧ ∀ m, ∃ n, B.trace m t <+: A.trace n s

/-- One or more steps, with the number of steps. -/
inductive Path (A : EventMachine σ ε) : σ → Nat → List ε → Option σ → Prop
  | last {s es o} (hstep : A.step s = (es, o)) : A.Path s 1 es o
  | next {s t n es es' o} (hstep : A.step s = (es, some t)) (hrest : A.Path t n es' o) :
      A.Path s (n + 1) (es ++ es') o

/-- Steps without events. -/
def Silent (A : EventMachine σ ε) : σ → σ → Prop :=
  Relation.ReflTransGen fun s t ↦ A.step s = ([], some t)

/-- A step with events, and steps without them after it. -/
theorem Path.of_silent (hstep : A.step s = (es, some s')) {r : σ} (hrest : A.Silent s' r) :
    ∃ k, A.Path s k es (some r) := by
  unfold Silent at hrest
  induction hrest using Relation.ReflTransGen.head_induction_on generalizing s es with
  | refl => exact ⟨1, .last hstep⟩
  | @head a b hab _ ih =>
      obtain ⟨k, hk⟩ := ih hab
      have hpath := Path.next hstep hk
      rw [List.append_nil] at hpath
      exact ⟨k + 1, hpath⟩

theorem Path.after_silent {o : Option σ} {k : Nat} (hsilent : A.Silent s s')
    (hp : A.Path s' k es o) : ∃ k, A.Path s k es o := by
  unfold Silent at hsilent
  induction hsilent using Relation.ReflTransGen.head_induction_on with
  | refl => exact ⟨k, hp⟩
  | head hstep _ ih =>
      obtain ⟨k', hp'⟩ := ih
      exact ⟨k' + 1, Path.next hstep hp'⟩

theorem trace_prefix_succ (A : EventMachine σ ε) (n : Nat) (s : σ) :
    A.trace n s <+: A.trace (n + 1) s := by
  induction n generalizing s with
  | zero => exact List.nil_prefix
  | succ n ih =>
      rw [trace, trace, List.prefix_append_right_inj]
      cases (A.step s).2 with
      | none => exact List.prefix_rfl
      | some s' => exact ih s'

theorem trace_prefix {n m : Nat} (hnm : n ≤ m) (s : σ) : A.trace n s <+: A.trace m s := by
  induction hnm with
  | refl => exact List.prefix_rfl
  | step _ ih => exact ih.trans (A.trace_prefix_succ _ s)

/-- The events of a path come first in the trace. -/
theorem Path.trace_add {o : Option σ} {k : Nat} (hp : A.Path s k es o) (n : Nat) :
    A.trace (n + k) s = es ++ (o.map (A.trace n)).getD [] := by
  induction hp with
  | last hstep => rw [trace, hstep]
  | @next s t k es es' o hstep _ ih =>
      rw [← Nat.add_assoc, trace, hstep, List.append_assoc, ← ih]
      simp only [Option.map_some, Option.getD_some]

theorem Path.pos {o : Option σ} {k : Nat} (hp : A.Path s k es o) : 0 < k := by
  cases hp <;> omega

/-- Every step of the first machine is answered by a path of the second. -/
def Answers (A : EventMachine σ ε) (B : EventMachine τ ε) (R : σ → τ → Prop) : Prop :=
  ∀ s t, R s t → (∃ es k, A.step s = (es, none) ∧ B.Path t k es none) ∨
    ∃ es k s' t', A.step s = (es, some s') ∧ B.Path t k es (some t') ∧ R s' t'

theorem Answers.trace_prefix_right (h : Answers A B R) (n : Nat) (hR : R s t) :
    ∃ m, A.trace n s <+: B.trace m t := by
  induction n generalizing s t with
  | zero => exact ⟨0, List.nil_prefix⟩
  | succ n ih =>
      rcases h s t hR with ⟨es, k, hstep, hp⟩ | ⟨es, k, s', t', hstep, hp, hR'⟩
      · refine ⟨0 + k, ?_⟩
        rw [hp.trace_add, trace, hstep]
        exact List.prefix_rfl
      · obtain ⟨m, hm⟩ := ih hR'
        refine ⟨m + k, ?_⟩
        rw [hp.trace_add, trace, hstep]
        exact (List.prefix_append_right_inj es).mpr hm

theorem Answers.trace_prefix_left (h : Answers A B R) (m : Nat) (hR : R s t) :
    ∃ n, B.trace m t <+: A.trace n s := by
  induction m using Nat.strong_induction_on generalizing s t with
  | _ m ih =>
      rcases h s t hR with ⟨es, k, hstep, hp⟩ | ⟨es, k, s', t', hstep, hp, hR'⟩
      · refine ⟨1, ?_⟩
        have hlong : B.trace m t <+: B.trace (m + k) t := trace_prefix (Nat.le_add_right m k) t
        rw [hp.trace_add] at hlong
        rw [trace, hstep]
        exact hlong
      · by_cases hkm : k ≤ m
        · obtain ⟨rest, rfl⟩ := Nat.exists_eq_add_of_le' hkm
          have hpos := hp.pos
          obtain ⟨n, hn⟩ := ih rest (by omega) hR'
          refine ⟨n + 1, ?_⟩
          rw [hp.trace_add, trace, hstep]
          exact (List.prefix_append_right_inj es).mpr hn
        · refine ⟨1, ?_⟩
          have hlong : B.trace m t <+: B.trace (0 + k) t := trace_prefix (by omega) t
          rw [hp.trace_add] at hlong
          rw [trace, hstep]
          exact hlong

theorem Answers.sameTrace (h : Answers A B R) (hR : R s t) : SameTrace A B s t :=
  ⟨fun n ↦ h.trace_prefix_right n hR, fun m ↦ h.trace_prefix_left m hR⟩

/-- An event that no step of the first machine gives does not occur in the second. -/
theorem SameTrace.not_mem {e : ε} (h : SameTrace A B s t) (hA : ∀ s, e ∉ (A.step s).1) (m : Nat) :
    e ∉ B.trace m t := by
  have hnone : ∀ n s, e ∉ A.trace n s := by
    intro n
    induction n with
    | zero => exact fun _ ↦ List.not_mem_nil
    | succ n ih =>
        intro s
        rw [trace, List.mem_append, not_or]
        refine ⟨hA s, ?_⟩
        cases (A.step s).2 with
        | none => exact List.not_mem_nil
        | some s' => exact ih s'
  obtain ⟨n, hn⟩ := h.2 m
  exact fun hmem ↦ hnone n s (hn.subset hmem)

end EventMachine

end CalcKernel.Lib
