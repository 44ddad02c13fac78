import CalcKernel.Lib.FlowGraph
import Mathlib.Data.Fintype.Order

/-!
# Headers of cycles

A graph without cycles of forward edges is one in which every connected set of vertices lies in
the natural loop of one of its members.
-/

namespace CalcKernel.Lib.FlowGraph

open Relation

universe u

variable {V : Type u} {G : FlowGraph V} {S : V → Prop} {h x y z : V}

/-- Any two members are joined by a path of at least one edge inside of the set. -/
def Connected (G : FlowGraph V) (S : V → Prop) : Prop :=
  ∀ x y, S x → S y → TransGen (fun a b ↦ G.edge a b ∧ S a ∧ S b) x y

/-- Among finitely many vertices without a cycle of forward edges one has none that leads to it
from another. -/
theorem exists_first [Finite {x // S x}] (hne : ∃ x, S x)
    (hacyclic : ∀ x, S x → ¬ TransGen G.Forward x x) : ∃ h, S h ∧ ∀ p, S p → ¬ G.Forward p h := by
  have htrans : IsTrans {x // S x} fun a b ↦ TransGen G.Forward a.1 b.1 :=
    ⟨fun _ _ _ hab hbc ↦ TransGen.trans hab hbc⟩
  have hirrefl : Std.Irrefl fun a b : {x // S x} ↦ TransGen G.Forward a.1 b.1 :=
    ⟨fun a ↦ hacyclic a.1 a.2⟩
  obtain ⟨x, hx⟩ := hne
  obtain ⟨h, -, hfirst⟩ := (Finite.wellFounded_of_trans_of_irrefl
    fun a b : {x // S x} ↦ TransGen G.Forward a.1 b.1).has_min Set.univ ⟨⟨x, hx⟩, trivial⟩
  exact ⟨h.1, h.2, fun p hp hforward ↦ hfirst ⟨p, hp⟩ trivial (.single hforward)⟩

/-- A connected set lies in the loop of one of its members. -/
theorem Connected.exists_header [Finite {x // S x}] (hS : G.Connected S) (hne : ∃ x, S x)
    (hacyclic : ∀ x, S x → ¬ TransGen G.Forward x x) :
    ∃ h, S h ∧ (∃ latch, S latch ∧ G.edge latch h ∧ G.Dominates h latch) ∧
      ∀ x, S x → G.InLoop h x := by
  obtain ⟨h, hh, hfirst⟩ := exists_first hne hacyclic
  have hback : ∀ p, S p → G.edge p h → G.Dominates h p := by
    intro p hp hedge
    by_contra hdom
    exact hfirst p hp ⟨hedge, hdom⟩
  refine ⟨h, hh, ?_, fun x hx ↦ ?_⟩
  · obtain ⟨latch, -, hedge, hlatch, -⟩ := TransGen.tail'_iff.mp (hS h h hh hh)
    exact ⟨latch, hlatch, hedge, hback latch hlatch hedge⟩
  · -- back from the header along a path inside of the set
    have hpath := (hS x h hx hh).to_reflTransGen
    clear hx
    induction hpath using ReflTransGen.head_induction_on with
    | refl => exact Or.inl rfl
    | @head a b hstep _ ih =>
        obtain ⟨hedge, ha, -⟩ := hstep
        by_cases hb : b = h
        · subst hb
          by_cases hab : a = b
          · exact Or.inl hab
          · exact Or.inr ⟨hab, a, hedge, hback a ha hedge, .refl⟩
        · exact ih.of_edge hb hedge

/-- The vertices on cycles of forward edges through a vertex are connected, and none of them
dominates them all. -/
theorem connected_of_cycle (hx : TransGen G.Forward x x) :
    ∃ S : V → Prop, S x ∧ G.Connected S ∧ (∀ y, S y → ReflTransGen G.Forward x y) ∧
      ¬ ∃ h, S h ∧ ∀ y, S y → G.Dominates h y := by
  refine ⟨fun y ↦ ReflTransGen G.Forward x y ∧ ReflTransGen G.Forward y x, ⟨.refl, .refl⟩, ?_,
    fun y hy ↦ hy.1, ?_⟩
  · intro y z hy hz
    have hpath : TransGen G.Forward y z :=
      TransGen.trans_right hy.2 (TransGen.trans_left hx hz.1)
    have hinside : ∀ a, TransGen G.Forward a z → ReflTransGen G.Forward x a →
        ReflTransGen G.Forward x a ∧ ReflTransGen G.Forward a x :=
      fun a haz hxa ↦ ⟨hxa, haz.to_reflTransGen.trans hz.2⟩
    have hxy := hy.1
    clear hy
    induction hpath using TransGen.head_induction_on with
    | single hstep =>
        exact .single ⟨hstep.1, hinside _ (.single hstep) hxy, hz⟩
    | head hstep hrest ih =>
        have hxb := hxy.tail hstep
        exact .head ⟨hstep.1, hinside _ (.head hstep hrest) hxy, hinside _ hrest hxb⟩ (ih hxb)
  · rintro ⟨h, ⟨hxh, hhx⟩, hdom⟩
    have hcycle : TransGen G.Forward h h := TransGen.trans_right hhx (TransGen.trans_left hx hxh)
    obtain ⟨p, hhp, hforward⟩ := TransGen.tail'_iff.mp hcycle
    exact hforward.2 (hdom p ⟨hxh.trans hhp, .head hforward hhx⟩)

end CalcKernel.Lib.FlowGraph
