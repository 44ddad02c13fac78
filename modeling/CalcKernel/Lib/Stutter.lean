import CalcKernel.Lib.Machine

/-!
# Simulations that wait

A step of the simulated machine may be left unanswered as long as an index goes down.  What
ends or goes on for ever does so in the simulating machine, too.
-/

namespace CalcKernel.Lib

universe u v w

namespace Machine

variable {σ : Type u} {τ : Type v} {ρ : Type w} {ω : Type*}

/-- A run that ends is answered by one that ends alike, a run for ever by one for ever. -/
structure Refines (A : Machine σ ω) (s : σ) (B : Machine τ ω) (t : τ) : Prop where
  halts : ∀ o, A.Halts s o → B.Halts t o
  diverges : A.Diverges s → B.Diverges t

theorem Refines.refl (A : Machine σ ω) (s : σ) : Refines A s A s := ⟨fun _ h ↦ h, fun h ↦ h⟩

theorem Refines.trans {A : Machine σ ω} {B : Machine τ ω} {C : Machine ρ ω} {s : σ} {t : τ} {r : ρ}
    (h : Refines A s B t) (h' : Refines B t C r) : Refines A s C r :=
  ⟨fun o ho ↦ h'.halts o (h.halts o ho), fun hd ↦ h'.diverges (h.diverges hd)⟩

theorem Diverges.of_reaches {A : Machine σ ω} {s s' : σ} (h : A.Diverges s) (hs : A.Reaches s s') :
    A.Diverges s' := fun t ht ↦ h t (hs.trans ht)

end Machine

/-- Every step of `A` is answered by at least one step of `B`, or lowers the index. -/
structure StutterSimulation {σ : Type u} {τ : Type v} {ω : Type w} (A : Machine σ ω)
    (B : Machine τ ω) (R : Nat → σ → τ → Prop) : Prop where
  next : ∀ {n s s' t}, R n s t → A.step s = .next s' →
    (∃ n' < n, R n' s' t) ∨ ∃ n' t', B.ReachesPlus t t' ∧ R n' s' t'
  halt : ∀ {n s o t}, R n s t → A.step s = .halt o → B.Halts t o

namespace StutterSimulation

variable {σ : Type u} {τ : Type v} {ω : Type w} {A : Machine σ ω} {B : Machine τ ω}
variable {R : Nat → σ → τ → Prop} {n : Nat} {s s' : σ} {t : τ}

theorem reaches (sim : StutterSimulation A B R) (hR : R n s t) (h : A.Reaches s s') :
    ∃ n' t', B.Reaches t t' ∧ R n' s' t' := by
  induction h with
  | refl => exact ⟨n, t, .refl t, hR⟩
  | tail _ hstep ih =>
      obtain ⟨k, r, hr, hRr⟩ := ih
      rcases sim.next hRr hstep with ⟨k', -, hR'⟩ | ⟨k', t', ht', hR'⟩
      · exact ⟨k', r, hr, hR'⟩
      · exact ⟨k', t', hr.trans ht'.reaches, hR'⟩

theorem halts (sim : StutterSimulation A B R) (hR : R n s t) {o : ω} (h : A.Halts s o) :
    B.Halts t o := by
  obtain ⟨s', hs', ho⟩ := h
  obtain ⟨n', t', ht', hR'⟩ := sim.reaches hR hs'
  exact .of_reaches ht' (sim.halt hR' ho)

/-- The index cannot go down for ever. -/
theorem answered (sim : StutterSimulation A B R) (hR : R n s t) (h : A.Diverges s) :
    ∃ n' s' t', A.Reaches s s' ∧ B.ReachesPlus t t' ∧ R n' s' t' := by
  induction n using Nat.strongRecOn generalizing s with
  | ind n ih =>
      obtain ⟨s₁, hs₁⟩ := h s (.refl s)
      rcases sim.next hR hs₁ with ⟨n', hn', hR'⟩ | ⟨n', t', ht', hR'⟩
      · obtain ⟨k, s', t', hs', ht', hR''⟩ :=
          ih n' hn' hR' (h.of_reaches (.tail (.refl s) hs₁))
        exact ⟨k, s', t', .head hs₁ hs', ht', hR''⟩
      · exact ⟨n', s₁, t', .tail (.refl s) hs₁, ht', hR'⟩

/-- Every state the simulating machine reaches is followed by one that answers. -/
theorem reaches_run (sim : StutterSimulation A B R) (hR : R n s t) (h : A.Diverges s) {r : τ}
    (hr : B.Reaches t r) : ∃ n' s' r', A.Reaches s s' ∧ B.ReachesPlus r r' ∧ R n' s' r' := by
  induction hr with
  | refl => exact sim.answered hR h
  | tail _ hstep ih =>
      obtain ⟨k, s', r', hs', hr', hR'⟩ := ih
      obtain ⟨e, he, her⟩ := Relation.TransGen.head'_iff.mp hr'
      have heq : e = _ := (Move.next.injEq _ _).mp (he.symm.trans hstep)
      rw [heq] at her
      obtain ⟨k', s'', r'', hs'', hr'', hR''⟩ := sim.answered hR' (h.of_reaches hs')
      exact ⟨k', s'', r'', hs'.trans hs'', Relation.TransGen.trans_right her hr'', hR''⟩

theorem diverges (sim : StutterSimulation A B R) (hR : R n s t) (h : A.Diverges s) :
    B.Diverges t := by
  intro r hr
  obtain ⟨_, _, _, _, hplus, _⟩ := sim.reaches_run hR h hr
  obtain ⟨e, he, _⟩ := Relation.TransGen.head'_iff.mp hplus
  exact ⟨e, he⟩

theorem refines (sim : StutterSimulation A B R) (hR : R n s t) : A.Refines s B t :=
  ⟨fun _ ↦ sim.halts hR, sim.diverges hR⟩

end StutterSimulation

end CalcKernel.Lib
