import Mathlib.Logic.Relation
import Mathlib.Tactic.Common

/-!
# Flow graphs

Domination, natural loops and reducibility of a directed graph with roots.
Natural loops of different headers are nested or apart.  In a reducible graph every
vertex is reached without going back, and a header comes before the rest of its loop.
-/

namespace CalcKernel.Lib

open Relation

universe u

variable {V : Type u}

theorem weakenPath {S T : V → V → Prop} {x y : V} (h : ReflTransGen S x y)
    (hST : ∀ a b, S a b → T a b) : ReflTransGen T x y :=
  h.lift id hST

/-- A path goes through a vertex, or all its steps avoid it. -/
theorem splitPath {S : V → V → Prop} {x y : V} (h : ReflTransGen S x y) (c : V) :
    (ReflTransGen S x c ∧ ReflTransGen S c y) ∨ ReflTransGen (fun a b ↦ S a b ∧ b ≠ c) x y := by
  induction h with
  | refl => exact Or.inr .refl
  | @tail y z _ hstep ih =>
      rcases ih with ⟨hxc, hcy⟩ | havoid
      · exact Or.inl ⟨hxc, hcy.tail hstep⟩
      · by_cases hz : z = c
        · subst hz
          have hxy : ReflTransGen S x y := weakenPath havoid (fun _ _ h ↦ h.1)
          exact Or.inl ⟨hxy.tail hstep, .refl⟩
        · exact Or.inr (havoid.tail ⟨hstep, hz⟩)

/-- Of two vertices one is the last that a path meets, or it starts and stays apart from both. -/
theorem lastMet {S : V → V → Prop} {x y : V} (h : ReflTransGen S x y) (c d : V) :
    ReflTransGen (fun a b ↦ S a b ∧ b ≠ c) d y ∨ ReflTransGen (fun a b ↦ S a b ∧ b ≠ d) c y ∨
      (x ≠ c ∧ x ≠ d ∧ ReflTransGen (fun a b ↦ S a b ∧ b ≠ c ∧ b ≠ d) x y) := by
  induction h using ReflTransGen.head_induction_on with
  | refl =>
      by_cases hc : y = c
      · exact Or.inr (Or.inl (hc ▸ .refl))
      · by_cases hd : y = d
        · exact Or.inl (hd ▸ .refl)
        · exact Or.inr (Or.inr ⟨hc, hd, .refl⟩)
  | @head x z hstep _ ih =>
      rcases ih with hlast | hlast | ⟨hzc, hzd, hrest⟩
      · exact Or.inl hlast
      · exact Or.inr (Or.inl hlast)
      · by_cases hc : x = c
        · subst hc
          exact Or.inr (Or.inl ((weakenPath hrest (fun _ _ h ↦ ⟨h.1, h.2.2⟩)).head ⟨hstep, hzd⟩))
        · by_cases hd : x = d
          · subst hd
            exact Or.inl ((weakenPath hrest (fun _ _ h ↦ ⟨h.1, h.2.1⟩)).head ⟨hstep, hzc⟩)
          · exact Or.inr (Or.inr ⟨hc, hd, hrest.head ⟨hstep, hzc, hzd⟩⟩)

/-- A directed graph with the vertices at which it is entered. -/
structure FlowGraph (V : Type u) where
  edge : V → V → Prop
  root : V → Prop

namespace FlowGraph

variable {G : FlowGraph V} {a b c d h k r x y : V}

/-- A path none of whose steps leads to the vertex. -/
def Avoids (G : FlowGraph V) (d x y : V) : Prop :=
  ReflTransGen (fun a b ↦ G.edge a b ∧ b ≠ d) x y

def Reachable (G : FlowGraph V) (b : V) : Prop := ∃ r, G.root r ∧ ReflTransGen G.edge r b

/-- Every path from a root to `b` goes through `d`. -/
def Dominates (G : FlowGraph V) (d b : V) : Prop := ∀ r, G.root r → r ≠ d → ¬ G.Avoids d r b

theorem Avoids.path (hp : G.Avoids d x y) : ReflTransGen G.edge x y :=
  weakenPath hp (fun _ _ hstep ↦ hstep.1)

/-- A path to another vertex arrives there for the first time along an edge. -/
theorem exists_arrival (hp : ReflTransGen G.edge x y) (hne : x ≠ y) :
    ∃ c, G.Avoids y x c ∧ G.edge c y := by
  have hmeets : ∀ z, ReflTransGen G.edge x z →
      G.Avoids y x z ∨ ∃ c, G.Avoids y x c ∧ G.edge c y := by
    intro z hz
    induction hz with
    | refl => exact Or.inl .refl
    | @tail a z _ hstep ih =>
        rcases ih with havoid | hmet
        · by_cases hzy : z = y
          · exact Or.inr ⟨a, havoid, hzy ▸ hstep⟩
          · exact Or.inl (havoid.tail ⟨hstep, hzy⟩)
        · exact Or.inr hmet
  rcases hmeets y hp with havoid | hmet
  · cases havoid with
    | refl => exact absurd rfl hne
    | tail _ hstep => exact absurd rfl hstep.2
  · exact hmet

theorem Avoids.ne (hp : G.Avoids d x y) (hx : x ≠ d) : y ≠ d := by
  cases hp with
  | refl => exact hx
  | tail _ hstep => exact hstep.2

theorem Dominates.refl (G : FlowGraph V) (d : V) : G.Dominates d d :=
  fun _ _ hr hp ↦ hp.ne hr rfl

/-- A path from a root meets a dominator. -/
theorem Dominates.split (hdom : G.Dominates d b) (hroot : G.root r)
    (hp : ReflTransGen G.edge r b) : ReflTransGen G.edge r d ∧ ReflTransGen G.edge d b := by
  rcases splitPath hp d with hsplit | havoid
  · exact hsplit
  · by_cases hr : r = d
    · subst hr
      exact ⟨.refl, hp⟩
    · exact absurd havoid (hdom r hroot hr)

theorem Dominates.trans (hdc : G.Dominates d c) (hcb : G.Dominates c b) : G.Dominates d b := by
  intro r hroot hr hp
  rcases splitPath hp c with ⟨hrc, _⟩ | havoid
  · exact hdc r hroot hr hrc
  · by_cases hrc : r = c
    · exact hdc r hroot hr (hrc ▸ .refl)
    · exact hcb r hroot hrc (weakenPath havoid (fun _ _ hstep ↦ ⟨hstep.1.1, hstep.2⟩))

/-- What dominates a vertex other than itself dominates the vertices with an edge to it. -/
theorem Dominates.of_edge (hdom : G.Dominates d b) (hne : b ≠ d) (hedge : G.edge a b) :
    G.Dominates d a :=
  fun r hroot hr hp ↦ hdom r hroot hr (hp.tail ⟨hedge, hne⟩)

/-- Of two dominators of a vertex that is reached one dominates the other. -/
theorem Dominates.comparable (hx : G.Reachable x) (hc : G.Dominates c x) (hd : G.Dominates d x) :
    G.Dominates c d ∨ G.Dominates d c := by
  obtain ⟨r, hroot, hp⟩ := hx
  rcases lastMet hp c d with hlast | hlast | ⟨hrc, _, hapart⟩
  · exact Or.inl fun r hroot hr hp ↦ hc r hroot hr (ReflTransGen.trans hp hlast)
  · exact Or.inr fun r hroot hr hp ↦ hd r hroot hr (ReflTransGen.trans hp hlast)
  · exact absurd (weakenPath hapart (fun _ _ hstep ↦ ⟨hstep.1, hstep.2.1⟩))
      (hc r hroot hrc)

theorem Dominates.antisymm (hx : G.Reachable d) (hcd : G.Dominates c d) (hdc : G.Dominates d c) :
    c = d := by
  by_contra hne
  obtain ⟨r, hroot, hp⟩ := hx
  -- no path from a root reaches one of the two before the other
  have hapart : ∀ y, ReflTransGen G.edge r y →
      y ≠ c ∧ y ≠ d ∧ ReflTransGen (fun a b ↦ G.edge a b ∧ b ≠ c ∧ b ≠ d) r y := by
    intro y hy
    induction hy with
    | refl =>
        refine ⟨?_, ?_, .refl⟩
        · rintro rfl
          exact hdc r hroot hne .refl
        · rintro rfl
          exact hcd r hroot (Ne.symm hne) .refl
    | @tail y z _ hstep ih =>
        obtain ⟨_, _, hpath⟩ := ih
        have hc : z ≠ c := by
          rintro rfl
          by_cases hr : r = d
          · exact hcd r hroot (by rw [hr]; exact Ne.symm hne) (hr ▸ .refl)
          · exact hdc r hroot hr ((weakenPath hpath (fun _ _ h ↦ ⟨h.1, h.2.2⟩)).tail ⟨hstep, hne⟩)
        have hd : z ≠ d := by
          rintro rfl
          by_cases hr : r = c
          · exact hdc r hroot (by rw [hr]; exact hne) (hr ▸ .refl)
          · exact hcd r hroot hr ((weakenPath hpath (fun _ _ h ↦ ⟨h.1, h.2.1⟩)).tail ⟨hstep, hc⟩)
        exact ⟨hc, hd, hpath.tail ⟨hstep, hc, hd⟩⟩
  exact (hapart d hp).2.1 rfl

/-! ## Natural loops -/

/-- The header, and the vertices from which an edge back to it is reached without it. -/
def InLoop (G : FlowGraph V) (h x : V) : Prop :=
  x = h ∨ (x ≠ h ∧ ∃ latch, G.edge latch h ∧ G.Dominates h latch ∧ G.Avoids h x latch)

theorem InLoop.dominates (hx : G.InLoop h x) : G.Dominates h x := by
  rcases hx with rfl | ⟨_, latch, _, hdom, hp⟩
  · exact Dominates.refl G x
  · exact fun r hroot hr hrx ↦ hdom r hroot hr (ReflTransGen.trans hrx hp)

/-- A loop is entered at its header only. -/
theorem InLoop.of_edge (hx : G.InLoop h x) (hne : x ≠ h) (hedge : G.edge y x) : G.InLoop h y := by
  by_cases hy : y = h
  · exact Or.inl hy
  · rcases hx with rfl | ⟨_, latch, hlatch, hdom, hp⟩
    · exact absurd rfl hne
    · exact Or.inr ⟨hy, latch, hlatch, hdom, hp.head ⟨hedge, hne⟩⟩

/-- A path within a loop stays apart from a vertex that the header does not dominate. -/
theorem InLoop.avoids_of_not_dominates (hlatch : G.edge k h) (hdom : G.Dominates h k)
    (hp : G.Avoids h x k) (hnot : ¬ G.Dominates h c) : G.Avoids c x k := by
  unfold Avoids at hp ⊢
  induction hp using ReflTransGen.head_induction_on with
  | refl => exact .refl
  | @head x z hstep hrest ih =>
      refine ih.head ⟨hstep.1, ?_⟩
      rintro rfl
      exact hnot (InLoop.dominates (Or.inr ⟨hstep.2, k, hlatch, hdom, hrest⟩))

/-- Where the header of one loop dominates the header of another that meets it, the other loop
lies inside. -/
theorem InLoop.nested (hne : h ≠ k) (hhk : G.Dominates h k) (hreach : G.Reachable x)
    (hh : G.InLoop h x) (hk : G.InLoop k x) (hy : G.InLoop k y) : G.InLoop h y := by
  have hkx := hk.dominates
  have hkReach : G.Reachable k := by
    obtain ⟨r, hroot, hp⟩ := hreach
    exact ⟨r, hroot, (hkx.split hroot hp).1⟩
  have hnot : ¬ G.Dominates k h := fun hkh ↦ hne (Dominates.antisymm hkReach hhk hkh)
  -- the inner header reaches a latch of the outer loop
  have hxh : x ≠ h := by
    rintro rfl
    exact hnot hkx
  obtain ⟨latch, hlatch, hdom, hpLatch⟩ : ∃ latch, G.edge latch h ∧ G.Dominates h latch ∧
      G.Avoids h x latch := by
    rcases hh with rfl | ⟨_, hh⟩
    · exact absurd rfl hxh
    · exact hh
  have hkPath : G.Avoids h k x := by
    obtain ⟨r, hroot, hp⟩ := hreach
    rcases lastMet hp h k with hlast | hlast | ⟨hrh, hrk, hapart⟩
    · exact hlast
    · exfalso
      apply hnot
      intro r hroot hr hrh
      exact hkx r hroot hr (ReflTransGen.trans hrh hlast)
    · exact absurd (weakenPath hapart (fun _ _ hstep ↦ ⟨hstep.1, hstep.2.2⟩))
        (hkx r hroot hrk)
  have hkLoop : G.InLoop h k :=
    Or.inr ⟨Ne.symm hne, latch, hlatch, hdom, ReflTransGen.trans hkPath hpLatch⟩
  rcases hy with rfl | ⟨hyk, latch', hlatch', hdom', hp'⟩
  · exact hkLoop
  · by_cases hyh : y = h
    · exact Or.inl hyh
    · have hp'' := InLoop.avoids_of_not_dominates hlatch' hdom' hp' hnot
      exact Or.inr ⟨hyh, latch, hlatch, hdom, ReflTransGen.trans hp''
        (ReflTransGen.head ⟨hlatch', Ne.symm hne⟩ (ReflTransGen.trans hkPath hpLatch))⟩

/-- Loops of different headers that meet are nested, and not equal. -/
theorem InLoop.nested_or_nested (hne : h ≠ k) (hreach : G.Reachable x) (hh : G.InLoop h x)
    (hk : G.InLoop k x) :
    ((∀ y, G.InLoop k y → G.InLoop h y) ∧ ¬ G.InLoop k h) ∨
      ((∀ y, G.InLoop h y → G.InLoop k y) ∧ ¬ G.InLoop h k) := by
  have hreachOf : ∀ {z}, G.Dominates z x → G.Reachable z := by
    intro z hz
    obtain ⟨r, hroot, hp⟩ := hreach
    exact ⟨r, hroot, (hz.split hroot hp).1⟩
  rcases Dominates.comparable hreach hh.dominates hk.dominates with hdom | hdom
  · refine Or.inl ⟨fun y hy ↦ InLoop.nested hne hdom hreach hh hk hy, fun hkh ↦ hne ?_⟩
    exact Dominates.antisymm (hreachOf hk.dominates) hdom hkh.dominates
  · refine Or.inr ⟨fun y hy ↦ InLoop.nested (Ne.symm hne) hdom hreach hk hh hy, fun hhk ↦ hne ?_⟩
    exact (Dominates.antisymm (hreachOf hh.dominates) hdom hhk.dominates).symm

/-! ## Reducible graphs -/

/-- An edge that does not lead back to a dominator. -/
def Forward (G : FlowGraph V) (x y : V) : Prop := G.edge x y ∧ ¬ G.Dominates y x

/-- Without the edges back to dominators what is reached from the entry has no cycle. -/
def Reducible (G : FlowGraph V) (entry : V) : Prop :=
  ∀ x, ReflTransGen G.edge entry x → ¬ TransGen G.Forward x x

/-- Whatever is reached is reached without going back. -/
theorem forward_path (hroot : G.root r) (hp : ReflTransGen G.edge r x) :
    ReflTransGen G.Forward r x := by
  induction hp with
  | refl => exact .refl
  | @tail y z _ hstep ih =>
      by_cases hback : G.Dominates z y
      · rcases splitPath ih z with ⟨hz, _⟩ | havoid
        · exact hz
        · by_cases hr : r = z
          · exact hr ▸ .refl
          · exact absurd (weakenPath havoid (fun _ _ h ↦ ⟨h.1.1, h.2⟩)) (hback r hroot hr)
      · exact ih.tail ⟨hstep, hback⟩

/-- A dominator comes first. -/
theorem Dominates.forward_path (hroot : G.root r) (hp : ReflTransGen G.edge r x)
    (hdom : G.Dominates d x) : ReflTransGen G.Forward d x := by
  have hforward := FlowGraph.forward_path hroot hp
  rcases splitPath hforward d with ⟨_, hd⟩ | havoid
  · exact hd
  · by_cases hr : r = d
    · exact hr ▸ hforward
    · exact absurd (weakenPath havoid (fun _ _ h ↦ ⟨h.1.1, h.2⟩)) (hdom r hroot hr)

end FlowGraph

end CalcKernel.Lib
