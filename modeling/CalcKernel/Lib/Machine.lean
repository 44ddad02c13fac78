import Mathlib.Logic.Relation
import Mathlib.Tactic.Common

/-!
# Deterministic machines

States, a partial step function and an observation at the end of a run; the
invariant rule, and forward simulation between two machines.
-/

namespace CalcKernel.Lib

universe u v w

/-- What one step does: move on, halt with an observation, or get stuck. -/
inductive Move (σ : Type u) (ω : Type v) where
  | next (s : σ)
  | halt (o : ω)
  | stuck

/-- The move of the states a function leads to. -/
def Move.map {σ : Type u} {τ : Type v} {ω : Type w} (f : σ → τ) : Move σ ω → Move τ ω
  | .next s => .next (f s)
  | .halt o => .halt o
  | .stuck => .stuck

/-- A deterministic machine is its step function. -/
structure Machine (σ : Type u) (ω : Type v) where
  step : σ → Move σ ω

namespace Machine

variable {σ : Type u} {ω : Type v} (M : Machine σ ω)

/-- At most `n` steps. -/
def run : Nat → σ → Move σ ω
  | 0, s => .next s
  | n + 1, s =>
      match M.step s with
      | .next t => run n t
      | .halt o => .halt o
      | .stuck => .stuck

def Steps (s t : σ) : Prop := M.step s = .next t

def Reaches : σ → σ → Prop := Relation.ReflTransGen M.Steps

/-- At least one step. -/
def ReachesPlus : σ → σ → Prop := Relation.TransGen M.Steps

def Halts (s : σ) (o : ω) : Prop := ∃ t, M.Reaches s t ∧ M.step t = .halt o

/-- Every state reached moves on. -/
def Diverges (s : σ) : Prop := ∀ t, M.Reaches s t → ∃ t', M.step t = .next t'

/-- A state is reached that has no step. -/
def GetsStuck (s : σ) : Prop := ∃ t, M.Reaches s t ∧ M.step t = .stuck

variable {M}

theorem Reaches.refl (s : σ) : M.Reaches s s := Relation.ReflTransGen.refl

theorem Reaches.head {s t r : σ} (h : M.step s = .next t) (hr : M.Reaches t r) :
    M.Reaches s r := Relation.ReflTransGen.head h hr

theorem Reaches.tail {s t r : σ} (h : M.Reaches s t) (hr : M.step t = .next r) :
    M.Reaches s r := Relation.ReflTransGen.tail h hr

theorem Reaches.trans {s t r : σ} (h : M.Reaches s t) (h' : M.Reaches t r) :
    M.Reaches s r := Relation.ReflTransGen.trans h h'

theorem ReachesPlus.reaches {s t : σ} (h : M.ReachesPlus s t) : M.Reaches s t :=
  Relation.TransGen.to_reflTransGen h

/-- The invariant rule. -/
theorem Reaches.invariant {I : σ → Prop} {s t : σ} (h : M.Reaches s t) (hs : I s)
    (hstep : ∀ a b, M.Reaches s a → I a → M.step a = .next b → I b) : I t := by
  induction h with
  | refl => exact hs
  | tail hab hbc ih => exact hstep _ _ hab ih hbc

theorem halts_of_step_halt {s : σ} {o : ω} (h : M.step s = .halt o) : M.Halts s o :=
  ⟨s, .refl s, h⟩

theorem Halts.head {s t : σ} {o : ω} (h : M.step s = .next t) (ht : M.Halts t o) :
    M.Halts s o := by
  obtain ⟨r, hr, ho⟩ := ht
  exact ⟨r, .head h hr, ho⟩

theorem Halts.of_reaches {s t : σ} {o : ω} (h : M.Reaches s t) (ht : M.Halts t o) :
    M.Halts s o := by
  obtain ⟨r, hr, ho⟩ := ht
  exact ⟨r, h.trans hr, ho⟩

theorem halts_of_run_halt {n : Nat} {s : σ} {o : ω} (h : M.run n s = .halt o) :
    M.Halts s o := by
  induction n generalizing s with
  | zero => simp [run] at h
  | succ n ih =>
      cases hs : M.step s with
      | next t => exact .head hs (ih (by simpa [run, hs] using h))
      | halt o' =>
          have ho : o' = o := by simpa [run, hs] using h
          exact ho ▸ halts_of_step_halt hs
      | stuck => simp [run, hs] at h

theorem reaches_of_run_next {n : Nat} {s t : σ} (h : M.run n s = .next t) : M.Reaches s t := by
  induction n generalizing s with
  | zero =>
      have hst : s = t := by simpa [run] using h
      exact hst ▸ .refl s
  | succ n ih =>
      cases hs : M.step s with
      | next r => exact .head hs (ih (by simpa [run, hs] using h))
      | halt o => simp [run, hs] at h
      | stuck => simp [run, hs] at h

/-- Runs from one state are comparable: the machine is deterministic. -/
theorem Reaches.connex {s a b : σ} (ha : M.Reaches s a) (hb : M.Reaches s b) :
    M.Reaches a b ∨ M.Reaches b a := by
  induction ha with
  | refl => exact .inl hb
  | @tail c d _ hcd ih =>
      rcases ih with hcb | hbc
      · rcases hcb.cases_head with rfl | ⟨e, hce, heb⟩
        · exact .inr (.tail (.refl _) hcd)
        · have hed : e = d := by
            have hn : Move.next (ω := ω) e = .next d := hce.symm.trans hcd
            exact (Move.next.injEq e d).mp hn
          exact .inl (hed ▸ heb)
      · exact .inr (hbc.tail hcd)

theorem Halts.unique {s : σ} {o o' : ω} (h : M.Halts s o) (h' : M.Halts s o') : o = o' := by
  obtain ⟨a, ha, hao⟩ := h
  obtain ⟨b, hb, hbo⟩ := h'
  have final : ∀ {c d : σ} {p : ω}, M.step c = .halt p → M.Reaches c d → c = d := by
    intro c d p hp hcd
    rcases hcd.cases_head with rfl | ⟨e, hce, _⟩
    · rfl
    · exact absurd (hp.symm.trans hce) (by simp)
  have hab : a = b := by
    rcases ha.connex hb with h | h
    · exact final hao h
    · exact (final hbo h).symm
  subst hab
  exact (Move.halt.injEq o o').mp (hao.symm.trans hbo)

/-- A run that halts or gets stuck ends in one state. -/
theorem Reaches.final {s a b : σ} (ha : M.Reaches s a) (hb : M.Reaches s b)
    (hfinal : ∀ t, M.step a ≠ .next t) (hfinal' : ∀ t, M.step b ≠ .next t) : a = b := by
  rcases ha.connex hb with h | h
  · rcases h.cases_head with rfl | ⟨t, ht, -⟩
    · rfl
    · exact absurd ht (hfinal t)
  · rcases h.cases_head with rfl | ⟨t, ht, -⟩
    · rfl
    · exact absurd ht (hfinal' t)

theorem GetsStuck.not_halts {s : σ} {o : ω} (h : M.GetsStuck s) : ¬ M.Halts s o := by
  rintro ⟨t, ht, ho⟩
  obtain ⟨r, hr, hstuck⟩ := h
  obtain rfl := ht.final hr (fun _ hn ↦ by rw [hn] at ho; cases ho)
    fun _ hn ↦ by rw [hn] at hstuck; cases hstuck
  rw [ho] at hstuck
  cases hstuck

theorem Diverges.not_getsStuck {s : σ} (h : M.Diverges s) : ¬ M.GetsStuck s := by
  rintro ⟨t, ht, hstuck⟩
  obtain ⟨t', ht'⟩ := h t ht
  rw [ht'] at hstuck
  cases hstuck

/-- A run halts, goes on for ever or gets stuck. -/
theorem halts_or_diverges (M : Machine σ ω) (s : σ) :
    (∃ o, M.Halts s o) ∨ M.Diverges s ∨ M.GetsStuck s := by
  by_cases hstuck : M.GetsStuck s
  · exact .inr (.inr hstuck)
  by_cases hhalts : ∃ o, M.Halts s o
  · exact .inl hhalts
  refine .inr (.inl fun t ht ↦ ?_)
  cases hstep : M.step t with
  | next t' => exact ⟨t', Eq.refl _⟩
  | halt o => exact absurd ⟨o, t, ht, hstep⟩ hhalts
  | stuck => exact absurd ⟨t, ht, hstep⟩ hstuck

theorem Diverges.not_halts {s : σ} {o : ω} (h : M.Diverges s) : ¬ M.Halts s o := by
  rintro ⟨t, ht, ho⟩
  obtain ⟨t', ht'⟩ := h t ht
  exact absurd (ho.symm.trans ht') (by simp)

end Machine

/-- A forward simulation: every step of `A` is answered by at least one step of `B`. -/
structure ForwardSimulation {σ : Type u} {τ : Type v} {ω : Type w} {ω' : Type w}
    (A : Machine σ ω) (B : Machine τ ω') (R : σ → τ → Prop) (O : ω → ω' → Prop) : Prop where
  next : ∀ {s s' t}, R s t → A.step s = .next s' → ∃ t', B.ReachesPlus t t' ∧ R s' t'
  halt : ∀ {s o t}, R s t → A.step s = .halt o → ∃ o', B.Halts t o' ∧ O o o'

namespace ForwardSimulation

variable {σ : Type u} {τ : Type v} {ω : Type w} {ω' : Type w}
variable {A : Machine σ ω} {B : Machine τ ω'} {R : σ → τ → Prop} {O : ω → ω' → Prop}

theorem reaches (sim : ForwardSimulation A B R O) {s s' : σ} {t : τ} (hR : R s t)
    (h : A.Reaches s s') : ∃ t', B.Reaches t t' ∧ R s' t' := by
  induction h with
  | refl => exact ⟨t, .refl t, hR⟩
  | tail _ hstep ih =>
      obtain ⟨r, hr, hRr⟩ := ih
      obtain ⟨t', ht', hR'⟩ := sim.next hRr hstep
      exact ⟨t', hr.trans ht'.reaches, hR'⟩

theorem halts (sim : ForwardSimulation A B R O) {s : σ} {t : τ} {o : ω} (hR : R s t)
    (h : A.Halts s o) : ∃ o', B.Halts t o' ∧ O o o' := by
  obtain ⟨s', hs', ho⟩ := h
  obtain ⟨t', ht', hR'⟩ := sim.reaches hR hs'
  obtain ⟨o', ho', hO⟩ := sim.halt hR' ho
  exact ⟨o', .of_reaches ht' ho', hO⟩

/-- A run of `A` of any length is answered by a run of `B` that is at least as long. -/
theorem reaches_run (sim : ForwardSimulation A B R O) {s : σ} {t : τ} (hR : R s t)
    (h : A.Diverges s) (r : τ) (hr : B.Reaches t r) :
    ∃ s' r', A.Reaches s s' ∧ B.ReachesPlus r r' ∧ R s' r' := by
  induction hr with
  | refl =>
      obtain ⟨s', hs'⟩ := h s (.refl s)
      obtain ⟨t', ht', hR'⟩ := sim.next hR hs'
      exact ⟨s', t', .tail (.refl s) hs', ht', hR'⟩
  | tail _ hstep ih =>
      obtain ⟨s', r', hs', hr', hR'⟩ := ih
      obtain ⟨e, he, her⟩ := Relation.TransGen.head'_iff.mp hr'
      have heq : e = _ := (Move.next.injEq _ _).mp (he.symm.trans hstep)
      rw [heq] at her
      obtain ⟨s'', hs''⟩ := h s' hs'
      obtain ⟨r'', hr'', hR''⟩ := sim.next hR' hs''
      exact ⟨s'', r'', hs'.tail hs'', Relation.TransGen.trans_right her hr'', hR''⟩

/-- The simulating machine runs on for ever when the simulated one does. -/
theorem diverges (sim : ForwardSimulation A B R O) {s : σ} {t : τ} (hR : R s t)
    (h : A.Diverges s) : B.Diverges t := by
  intro r hr
  obtain ⟨_, _, _, hplus, _⟩ := sim.reaches_run hR h r hr
  obtain ⟨e, he, _⟩ := Relation.TransGen.head'_iff.mp hplus
  exact ⟨e, he⟩

/-- Where getting stuck is answered by getting stuck the runs end alike. -/
theorem equivalent {B : Machine τ ω} (sim : ForwardSimulation A B R Eq)
    (hstuck : ∀ {s t}, R s t → A.step s = .stuck → B.GetsStuck t) {s : σ} {t : τ} (hR : R s t) :
    (∀ o, B.Halts t o ↔ A.Halts s o) ∧ (B.Diverges t ↔ A.Diverges s) ∧
      (B.GetsStuck t ↔ A.GetsStuck s) := by
  have hhalts : ∀ o, A.Halts s o → B.Halts t o := by
    intro o h
    obtain ⟨o', ho', heq⟩ := sim.halts hR h
    exact heq ▸ ho'
  have hdiverges : A.Diverges s → B.Diverges t := sim.diverges hR
  have hstucks : A.GetsStuck s → B.GetsStuck t := by
    rintro ⟨s', hs', hstep⟩
    obtain ⟨t', ht', hR'⟩ := sim.reaches hR hs'
    obtain ⟨r, hr, hr'⟩ := hstuck hR' hstep
    exact ⟨r, ht'.trans hr, hr'⟩
  rcases A.halts_or_diverges s with ⟨o, ho⟩ | hs | hs
  · have ht := hhalts o ho
    refine ⟨fun o' ↦ ⟨fun h ↦ ?_, hhalts o'⟩, ⟨fun h ↦ ?_, hdiverges⟩, ⟨fun h ↦ ?_, hstucks⟩⟩
    · exact h.unique ht ▸ ho
    · exact absurd ht h.not_halts
    · exact absurd ht h.not_halts
  · have ht := hdiverges hs
    refine ⟨fun o ↦ ⟨fun h ↦ ?_, hhalts o⟩, ⟨fun _ ↦ hs, hdiverges⟩, ⟨fun h ↦ ?_, hstucks⟩⟩
    · exact absurd h ht.not_halts
    · exact absurd h ht.not_getsStuck
  · have ht := hstucks hs
    refine ⟨fun o ↦ ⟨fun h ↦ ?_, hhalts o⟩, ⟨fun h ↦ ?_, hdiverges⟩, ⟨fun _ ↦ hs, hstucks⟩⟩
    · exact absurd h ht.not_halts
    · exact absurd ht h.not_getsStuck

end ForwardSimulation

end CalcKernel.Lib
