import CalcKernel.Lib.Loop

/-!
# Programs with a state that may fail to return

Total correctness says that a program returns and what with; partial correctness
says what holds whenever it returns.
-/

namespace CalcKernel.Lib

universe u

variable {σ α β : Type u} {m : StateT σ Option α} {f : α → StateT σ Option β} {s : σ}
  {Q R : α → σ → Prop} {S : β → σ → Prop}

/-- The program returns with what satisfies the condition. -/
def Returns (m : StateT σ Option α) (s : σ) (Q : α → σ → Prop) : Prop :=
  ∃ a t, m s = some (a, t) ∧ Q a t

/-- Whatever the program returns satisfies the condition. -/
def Ensures (m : StateT σ Option α) (s : σ) (Q : α → σ → Prop) : Prop :=
  ∀ a t, m s = some (a, t) → Q a t

namespace Returns

theorem of_eq {a : α} {t : σ} (h : m s = some (a, t)) (hQ : Q a t) : Returns m s Q := ⟨a, t, h, hQ⟩

theorem mono (h : Returns m s R) (hQ : ∀ a t, R a t → Q a t) : Returns m s Q := by
  obtain ⟨a, t, hm, hR⟩ := h
  exact ⟨a, t, hm, hQ a t hR⟩

theorem pure {a : α} (h : Q a s) : Returns (Pure.pure a) s Q := ⟨a, s, rfl, h⟩

theorem bind (h : Returns m s R) (hf : ∀ a t, R a t → Returns (f a) t S) :
    Returns (m >>= f) s S := by
  obtain ⟨a, t, hm, hR⟩ := h
  obtain ⟨b, r, hb, hS⟩ := hf a t hR
  refine ⟨b, r, ?_, hS⟩
  change (m s).bind (fun x ↦ f x.1 x.2) = _
  rw [hm]
  exact hb

theorem get {Q : σ → σ → Prop} (h : Q s s) : Returns MonadState.get s Q := ⟨s, s, rfl, h⟩

end Returns

namespace Ensures

theorem mono (h : Ensures m s R) (hQ : ∀ a t, R a t → Q a t) : Ensures m s Q :=
  fun a t hm ↦ hQ a t (h a t hm)

theorem failure : Ensures (Alternative.failure : StateT σ Option α) s Q := by
  intro a t h
  cases h

theorem pure {a : α} (h : Q a s) : Ensures (Pure.pure a) s Q := by
  intro b t hm
  cases hm
  exact h

theorem bind (h : Ensures m s R) (hf : ∀ a t, R a t → Ensures (f a) t S) :
    Ensures (m >>= f) s S := by
  intro b r hr
  change (m s).bind (fun x ↦ f x.1 x.2) = _ at hr
  obtain ⟨⟨a, t⟩, hm, hr⟩ := Option.bind_eq_some_iff.mp hr
  exact hf a t (h a t hm) b r hr

theorem get {Q : σ → σ → Prop} (h : Q s s) : Ensures MonadState.get s Q := by
  intro a t hm
  cases hm
  exact h

end Ensures

end CalcKernel.Lib
